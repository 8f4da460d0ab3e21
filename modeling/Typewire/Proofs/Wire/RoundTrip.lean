-- Whatever is written is read back. The bytes of a value are those of its parts after its own,
-- so a reader that reads the parts back reads the value back, in its normal form and with any
-- bytes after it; and it fails only for a reason that the value gives.
import Typewire.Proofs.Text.Utf8
import Typewire.Proofs.Wire.Normal
import Typewire.Proofs.Wire.Rows

namespace Typewire.Wire

/-! ## Reading unless there is a reason to fail -/

/-- The reader gives the value and leaves the rest where no error has a reason, and else it
fails with an error that has one. -/
def Reads {α : Type} (m : Taking α) (bytes : List UInt8) (a : α) (rest : List UInt8)
    (reason : CodecError → Prop) : Prop :=
  (m bytes = .ok (a, rest) ∧ ∀ e, ¬ reason e) ∨ ∃ e, m bytes = .error e ∧ reason e

variable {α β : Type} {m : Taking α} {bytes mid rest : List UInt8} {a : α} {b : β}
  {reason reason' : CodecError → Prop}

theorem Reads.of_ok (h : m bytes = .ok (a, rest)) (hno : ∀ e, ¬ reason e) :
    Reads m bytes a rest reason := Or.inl ⟨h, hno⟩

theorem Reads.congr (h : Reads m bytes a rest reason) (hiff : ∀ e, reason e ↔ reason' e) :
    Reads m bytes a rest reason' := by
  rcases h with ⟨hok, hno⟩ | ⟨e, herr, he⟩
  · exact Or.inl ⟨hok, fun e he => hno e ((hiff e).mpr he)⟩
  · exact Or.inr ⟨e, herr, (hiff e).mp he⟩

/-- A second reader goes on where the first stopped. -/
theorem Reads.bind {f : α → Taking β} (h : Reads m bytes a mid reason)
    (hf : Reads (f a) mid b rest reason') :
    Reads (m >>= f) bytes b rest fun e => reason e ∨ reason' e := by
  rcases h with ⟨hok, hno⟩ | ⟨e, herr, he⟩
  · rcases hf with ⟨hok', hno'⟩ | ⟨e, herr, he⟩
    · exact Or.inl ⟨(taking_bind_eq hok f).trans hok', fun e => not_or.mpr ⟨hno e, hno' e⟩⟩
    · exact Or.inr ⟨e, (taking_bind_eq hok f).trans herr, Or.inr he⟩
  · exact Or.inr ⟨e, taking_bind_error herr f, Or.inl he⟩

theorem Reads.after {f : α → Taking β} (h : m bytes = .ok (a, mid))
    (hf : Reads (f a) mid b rest reason) : Reads (m >>= f) bytes b rest reason := by
  unfold Reads
  rw [taking_bind_eq h f]
  exact hf

theorem Reads.after_byte {f : UInt8 → Taking β} {tag : UInt8}
    (hf : Reads (f tag) bytes b rest reason) : Reads (takeByte >>= f) (tag :: bytes) b rest reason :=
  .after rfl hf

theorem Reads.map (h : Reads m bytes a rest reason) (f : α → β) :
    Reads (do return f (← m)) bytes (f a) rest reason := by
  rcases h with ⟨hok, hno⟩ | ⟨e, herr, he⟩
  · exact Or.inl ⟨taking_bind_eq hok _, hno⟩
  · exact Or.inr ⟨e, taking_bind_error herr _, he⟩

/-! ## Values in a row -/

/-- A field that is left out is written as `null` is. -/
theorem encode_of_encodeField {t : Table} {entries : List (String × Value)} {f : Field}
    {bytes : List UInt8} (h : encodeField t entries f = .ofBytes bytes) :
    encode t ((entries.lookup f.name).getD .null) f.type = .ofBytes bytes := by
  unfold encodeField at h
  cases hlookup : entries.lookup f.name with
  | some v => rwa [hlookup] at h
  | none =>
    rw [hlookup] at h
    simp only [encodeAbsent] at h
    rw [Option.getD_none]
    split at h
    · cases h
    · rename_i tags layout hform
      rw [encode_option hform]
      exact h
    · cases h

theorem encodeRow_of_fields {t : Table} {entries : List (String × Value)} {fields : List Field}
    {bytes : List UInt8}
    (h : Encoding.concat (fields.map (encodeField t entries)) = .ofBytes bytes) :
    encodeRow t (partsBy (.map entries) (.struct fields)) = .ofBytes bytes := by
  induction fields generalizing bytes with
  | nil => exact h
  | cons f fields ih =>
    obtain ⟨front, back, hf, hfields, rfl⟩ := Encoding.append_eq_ofBytes h
    change encode t ((entries.lookup f.name).getD .null) f.type
      ++ encodeRow t (partsBy (.map entries) (.struct fields)) = _
    rw [encode_of_encodeField hf, ih hfields]
    rfl

/-- What a type writes for a value is read as the normal form of the value. -/
def ReadBack (t : Table) (decode : TypeId → Taking Value) (levels : Nat) : Prop :=
  ∀ (v : Value) (id : TypeId) (bytes rest : List UInt8), v.Short →
    encode t v id = .ofBytes bytes →
    Reads (decode id) (bytes ++ rest) (normal t v id) rest (Unreadable t levels (v, id))

theorem reads_row {t : Table} {decode : TypeId → Taking Value} {levels : Nat}
    (hd : ReadBack t decode levels) {ps : List (Value × TypeId)} (hshort : ∀ p ∈ ps, p.1.Short)
    {bytes : List UInt8} (h : encodeRow t ps = .ofBytes bytes) (rest : List UInt8) :
    Reads (takeAll decode (ps.map (·.2))) (bytes ++ rest) (ps.map fun p => normal t p.1 p.2) rest
      fun e => ∃ p ∈ ps, Unreadable t levels p e := by
  induction ps generalizing bytes with
  | nil =>
    cases h
    exact .of_ok rfl fun e he => by simp at he
  | cons p ps ih =>
    obtain ⟨front, back, hp, hps, rfl⟩ := Encoding.append_eq_ofBytes h
    have hfirst := hd p.1 p.2 front (back ++ rest) (hshort p List.mem_cons_self) hp
    have hothers := ih (fun q hq => hshort q (List.mem_cons_of_mem _ hq)) hps
    rw [List.append_assoc]
    refine (hfirst.bind (hothers.map (normal t p.1 p.2 :: ·))).congr fun e => ?_
    simp only [List.mem_cons, exists_eq_or_imp]

/-! ## Values without values inside -/

theorem length_le_of_mapM {α β ε : Type} {f : α → Except ε β} {xs : List α} {ys : List β}
    (h : xs.mapM f = .ok ys) : ys.length = xs.length := by
  induction xs generalizing ys with
  | nil =>
    cases h
    rfl
  | cons x xs ih =>
    rw [List.mapM_cons] at h
    obtain ⟨y, -, h⟩ := except_bind_ok h
    obtain ⟨ys', hys, h⟩ := except_bind_ok h
    cases h
    rw [List.length_cons, List.length_cons, ih hys]

theorem length_le_of_decodeFrom {index : Nat} {digits bytes : List UInt8}
    (h : Text.Hex.decodeFrom index digits = .ok bytes) : bytes.length ≤ digits.length := by
  fun_induction Text.Hex.decodeFrom index digits generalizing bytes with
  | case1 => cases h
  | case2 => cases h
  | case3 index high low rest _ _ _ _ ih =>
    cases hrest : Text.Hex.decodeFrom (index + 2) rest with
    | error e =>
      rw [hrest] at h
      cases h
    | ok tail =>
      rw [hrest] at h
      cases h
      have := ih hrest
      simp only [List.length_cons]
      omega
  | case4 =>
    cases h
    exact Nat.zero_le _

/-- The bytes that a short value stands for are few enough to be counted. -/
theorem length_bytesOf {v : Value} (hv : v.Short) {bytes : List UInt8}
    (h : bytesOf v = .ok bytes) : bytes.length < 2 ^ 64 := by
  cases hv with
  | bytes hlength =>
    cases h
    exact hlength
  | @text s hlength =>
    simp only [bytesOf] at h
    split at h
    · rename_i digits htext
      rw [htext] at hlength
      unfold Text.Hex.decode at h
      split at h
      · cases hdigits : Text.Hex.decodeFrom 0 digits with
        | error e =>
          rw [hdigits] at h
          cases h
        | ok read =>
          rw [hdigits] at h
          cases h
          have := length_le_of_decodeFrom hdigits
          simp only [List.length_cons] at hlength
          omega
      · cases h
    · cases h
      exact hlength
  | list hlength inner =>
    rw [length_le_of_mapM h]
    exact hlength
  | _ => cases h

theorem decodeLength_write {n : Nat} (h : n < 2 ^ 64) (rest : List UInt8) :
    Compact.decodeLength (Compact.write n ++ rest) = .ok (n, rest) := by
  rw [Compact.decodeLength_eq]
  exact Compact.decodeUpTo_write rest h (by decide)

variable {t : Table}

theorem take_text {s : String} (h : (Text.Utf8.encode s).length < 2 ^ 64) (rest : List UInt8) :
    takeText (Compact.write (Text.Utf8.encode s).length ++ Text.Utf8.encode s ++ rest)
      = .ok (.text s, rest) := by
  rw [takeText, List.append_assoc, taking_bind_eq (decodeLength_write h _),
    taking_bind_eq (take_append _ rest), Text.Utf8.decode_encode]
  rfl

theorem take_bytes {length : Option Nat} {v : Value} (hv : v.Short) {bytes : List UInt8}
    (h : encodeBytes length v = .ok bytes) (rest : List UInt8) :
    ∃ bs, bytesOf v = .ok bs ∧ takeBytes length (bytes ++ rest) = .ok (.bytes bs, rest) := by
  obtain ⟨bs, hbs, h⟩ := except_bind_ok h
  refine ⟨bs, hbs, ?_⟩
  cases length with
  | none =>
    cases h
    rw [takeBytes, List.append_assoc, taking_bind_eq (decodeLength_write (length_bytesOf hv hbs) _),
      taking_bind_eq (take_append bs rest)]
    rfl
  | some n =>
    simp only at h
    split at h
    · rename_i hlength
      cases h
      rw [takeBytes, ← hlength, taking_bind_eq (take_append _ rest)]
      rfl
    · cases h

/-- Only unsigned integers are compact. -/
theorem isSigned_of_layoutOf {s : Shape} {k : IntKind} (h : t.layoutOf s = .ok (.compact k)) :
    k.isSigned = false := by
  cases s with
  | primitive p => cases p <;> cases h
  | compact inner =>
    simp only [Table.layoutOf] at h
    split at h
    · cases h
      rfl
    · cases h
  | sequence element => simp only [Table.layoutOf] at h; split at h <;> cases h
  | array element n => simp only [Table.layoutOf] at h; split at h <;> cases h
  | tuple members => cases h
  | enum vs => cases h
  | struct fields => cases h

theorem take_compact {k : IntKind} (hk : k.isSigned = false) {v : Value} {bytes : List UInt8}
    (h : (do Compact.encode (← intWithin v k).toNat) = .ok bytes) (rest : List UInt8) :
    ∃ n, intOf v k = .ok n ∧ takeCompact k (bytes ++ rest) = .ok (valueOf k n, rest) := by
  obtain ⟨n, hn, h⟩ := except_bind_ok h
  obtain ⟨hof, hholds⟩ := intWithin_ok hn
  refine ⟨n, hof, ?_⟩
  have hleast := (holds_iff.mp hholds).1
  rw [IntKind.least, hk] at hleast
  have hnat : ((n.toNat : Nat) : Int) = n := Int.toNat_of_nonneg hleast
  rw [Compact.encode_eq] at h
  split at h
  · rename_i hfits
    cases h
    have hdecode : Compact.decode (Compact.write n.toNat ++ rest) = .ok (n.toNat, rest) := by
      rw [Compact.decode_eq]
      exact Compact.decodeUpTo_write rest hfits (Nat.le_refl _)
    rw [takeCompact, taking_bind_eq hdecode, hnat, if_pos hholds]
    rfl
  · cases h

/-! ## Values by layout -/

theorem TooLong.layout {v : Value} {id : TypeId} {layout : Layout} {e : CodecError}
    (h : TooLong t (v, id) e) (hform : t.form id = .ok (.plain layout)) :
    ∃ element items, layout = .sequence element true ∧ v = .list items ∧
      maxZeroSized < items.length ∧ e = .sequenceTooLong items.length maxZeroSized := by
  cases h with
  | @intro items _ element hform' hlong =>
    rw [hform] at hform'
    cases hform'
    exact ⟨element, items, rfl, rfl, hlong, rfl⟩

/-- What is wrong with a value by its layout is wrong with itself or with one of its parts. -/
def UnreadableBy (t : Table) (levels : Nat) (v : Value) (id : TypeId) (layout : Layout)
    (e : CodecError) : Prop :=
  TooLong t (v, id) e ∨ ∃ q ∈ partsBy v layout, Unreadable t levels q e

variable {decode : TypeId → Taking Value} {levels : Nat} {v : Value} {id : TypeId}

/-- A value that holds no other value is read. -/
theorem Reads.of_leaf {layout : Layout} {m : Taking Value} {bytes rest : List UInt8} {w : Value}
    (hform : t.form id = .ok (.plain layout)) (hplain : ∀ element, layout ≠ .sequence element true)
    (hparts : partsBy v layout = []) (h : m bytes = .ok (w, rest)) :
    Reads m bytes w rest (UnreadableBy t levels v id layout) := by
  refine .of_ok h fun e he => ?_
  rcases he with hlong | ⟨q, hq, -⟩
  · obtain ⟨element, -, hsequence, -⟩ := hlong.layout hform
    exact hplain element hsequence
  · rw [hparts] at hq
    cases hq

/-- A value that holds others, and is no list of any length, is read when they are. -/
theorem Reads.of_row {layout : Layout} {m : Taking Value}
    {bytes rest : List UInt8} {w : Value} (hform : t.form id = .ok (.plain layout))
    (hplain : ∀ element, layout ≠ .sequence element true)
    (h : Reads m bytes w rest fun e => ∃ p ∈ partsBy v layout, Unreadable t levels p e) :
    Reads m bytes w rest (UnreadableBy t levels v id layout) := by
  refine h.congr fun e => ⟨Or.inr, ?_⟩
  rintro (hlong | hinner)
  · obtain ⟨element, -, hsequence, -⟩ := hlong.layout hform
    exact absurd hsequence (hplain element)
  · exact hinner

theorem reads_items (hd : ReadBack t decode levels) {element : TypeId} {items : List Value}
    (inner : ∀ v ∈ items, v.Short) {body : List UInt8}
    (h : encodeItems t items element = .ofBytes body) (rest : List UInt8) :
    Reads (takeMany (decode element) items.length []) (body ++ rest)
      ((items.map (·, element)).map fun p => normal t p.1 p.2) rest
      fun e => ∃ p ∈ items.map (·, element), Unreadable t levels p e := by
  rw [encodeItems_eq] at h
  have hshort : ∀ p ∈ items.map (·, element), p.1.Short := by
    intro p hp
    obtain ⟨item, hitem, rfl⟩ := List.mem_map.mp hp
    exact inner item hitem
  have hids : (items.map (·, element)).map (·.2) = List.replicate items.length element := by
    rw [List.map_map]
    exact List.map_const'
  rw [takeMany_eq, ← hids]
  simp only [List.reverse_nil, List.nil_append, bind_pure]
  exact reads_row hd hshort h rest

theorem reads_sequence (hd : ReadBack t decode levels) {element : TypeId} {zeroSized : Bool}
    (hform : t.form id = .ok (.plain (.sequence element zeroSized))) (hv : v.Short)
    {bytes : List UInt8} (h : encodeAs t v (.sequence element zeroSized) = .ofBytes bytes)
    (rest : List UInt8) :
    Reads (decodeLayout decode (.sequence element zeroSized)) (bytes ++ rest)
      (.list ((partsBy v (.sequence element zeroSized)).map fun p => normal t p.1 p.2)) rest
      (UnreadableBy t levels v id (.sequence element zeroSized)) := by
  cases hv with
  | @list items hlength inner =>
    obtain ⟨head, body, hhead, hbody, rfl⟩ := Encoding.append_eq_ofBytes h
    cases Encoding.ofBytes_inj hhead
    rw [List.append_assoc]
    refine .after (decodeLength_write hlength _) ?_
    by_cases hlong : zeroSized = true ∧ maxZeroSized < items.length
    · obtain ⟨rfl, hlong⟩ := hlong
      refine Or.inr ⟨.sequenceTooLong items.length maxZeroSized, ?_, Or.inl (.intro hform hlong)⟩
      simp only [Bool.true_and, decide_eq_true hlong, if_true]
      rfl
    · have hfits : (zeroSized && decide (maxZeroSized < items.length)) = false := by
        simpa using hlong
      simp only [hfits, Bool.false_eq_true, if_false]
      refine ((reads_items hd inner hbody rest).map Value.list).congr fun e => ⟨Or.inr, ?_⟩
      rintro (hlong' | hinner)
      · obtain ⟨_, _, hlayout, hitems, hmany, -⟩ := hlong'.layout hform
        cases hlayout
        cases hitems
        exact absurd ⟨rfl, hmany⟩ hlong
      · exact hinner
  | _ => exact absurd h (Encoding.stop_ne_ofBytes _ _)

theorem reads_array (hd : ReadBack t decode levels) {element : TypeId} {length : Nat}
    (hform : t.form id = .ok (.plain (.array element length))) (hv : v.Short)
    {bytes : List UInt8} (h : encodeAs t v (.array element length) = .ofBytes bytes)
    (rest : List UInt8) :
    Reads (decodeLayout decode (.array element length)) (bytes ++ rest)
      (.list ((partsBy v (.array element length)).map fun p => normal t p.1 p.2)) rest
      (UnreadableBy t levels v id (.array element length)) := by
  cases hv with
  | @list items _ inner =>
    simp only [encodeAs] at h
    split at h
    · rename_i hlength
      refine .of_row hform (fun _ => Layout.noConfusion) ?_
      rw [← hlength]
      exact (reads_items hd inner h rest).map Value.list
    · exact absurd h (Encoding.stop_ne_ofBytes _ _)
  | _ => exact absurd h (Encoding.stop_ne_ofBytes _ _)

theorem reads_tuple (hd : ReadBack t decode levels) {members : List TypeId}
    (hform : t.form id = .ok (.plain (.tuple members))) (hv : v.Short)
    {bytes : List UInt8} (h : encodeAs t v (.tuple members) = .ofBytes bytes)
    (rest : List UInt8) :
    Reads (decodeLayout decode (.tuple members)) (bytes ++ rest)
      (rebuildBy v ((partsBy v (.tuple members)).map fun p => normal t p.1 p.2) (.tuple members))
      rest (UnreadableBy t levels v id (.tuple members)) := by
  cases members with
  | nil =>
    have hbytes : bytes = [] ∧ partsBy v (.tuple []) = [] := by
      cases v with
      | null =>
        cases h
        exact ⟨rfl, rfl⟩
      | list items =>
        simp only [encodeAs] at h
        split at h
        · cases h
          exact ⟨rfl, List.zip_nil_right⟩
        · exact absurd h (Encoding.stop_ne_ofBytes _ _)
      | _ => exact absurd h (Encoding.stop_ne_ofBytes _ _)
    rw [hbytes.1]
    exact .of_leaf hform (fun _ => Layout.noConfusion) hbytes.2 rfl
  | cons m ms =>
    cases hv with
    | @list items _ inner =>
      simp only [encodeAs] at h
      split at h
      · rename_i hlength
        rw [encodeMembers_eq] at h
        have hshort : ∀ p ∈ items.zip (m :: ms), p.1.Short := fun p hp =>
          inner p.1 (List.of_mem_zip (a := p.1) (b := p.2) hp).1
        have hrow := reads_row hd hshort h rest
        rw [List.map_snd_zip (Nat.le_of_eq hlength.symm)] at hrow
        exact .of_row hform (fun _ => Layout.noConfusion) (hrow.map Value.list)
      · exact absurd h (Encoding.stop_ne_ofBytes _ _)
    | _ => exact absurd h (Encoding.stop_ne_ofBytes _ _)

theorem reads_struct (hd : ReadBack t decode levels) {fields : List Field}
    (hform : t.form id = .ok (.plain (.struct fields))) (hv : v.Short)
    {bytes : List UInt8} (h : encodeAs t v (.struct fields) = .ofBytes bytes)
    (rest : List UInt8) :
    Reads (decodeLayout decode (.struct fields)) (bytes ++ rest)
      (rebuildBy v ((partsBy v (.struct fields)).map fun p => normal t p.1 p.2) (.struct fields))
      rest (UnreadableBy t levels v id (.struct fields)) := by
  cases hv with
  | @map entries inner =>
    have hshort : ∀ p ∈ partsBy (.map entries) (.struct fields), p.1.Short := by
      intro p hp
      obtain ⟨f, -, rfl⟩ := List.mem_map.mp hp
      exact Value.Short.getD_lookup inner f.name
    have hrow := reads_row hd hshort (encodeRow_of_fields h) rest
    have hids : (partsBy (.map entries) (.struct fields)).map (·.2) = fields.map (·.type) := by
      simp [partsBy]
    rw [hids] at hrow
    refine .of_row hform (fun _ => Layout.noConfusion) ?_
    simp only [decodeLayout, takeFields_eq]
    exact (hrow.map _).map _
  | _ => exact absurd h (Encoding.stop_ne_ofBytes _ _)

theorem reads_enum (hd : ReadBack t decode levels) {vs : List Variant}
    (hcheck : (Shape.enum vs).check = .ok ()) (hform : t.form id = .ok (.plain (.enum vs)))
    (hv : v.Short) {bytes : List UInt8} (h : encodeAs t v (.enum vs) = .ofBytes bytes)
    (rest : List UInt8) :
    Reads (decodeLayout decode (.enum vs)) (bytes ++ rest)
      (rebuildBy v ((partsBy v (.enum vs)).map fun p => normal t p.1 p.2) (.enum vs))
      rest (UnreadableBy t levels v id (.enum vs)) := by
  cases hv with
  | @map entries inner =>
    cases hchoice : Choice.ofEntries vs entries with
    | error e =>
      simp only [encodeAs, hchoice] at h
      exact absurd h (Encoding.stop_ne_ofBytes _ _)
    | ok choice =>
      simp only [encodeAs, hchoice] at h
      obtain ⟨head, body, hhead, hbody, rfl⟩ := Encoding.append_eq_ofBytes h
      cases Encoding.ofBytes_inj hhead
      obtain ⟨name, -, hfind, -⟩ := ofEntries_ok hchoice
      have htag := Shape.find?_tag hcheck (List.mem_of_find?_eq_some hfind)
      obtain ⟨⟨vname, tag, payload⟩, key⟩ := choice
      refine .after_byte ?_
      simp only at htag
      cases payload with
      | none =>
        cases hbody
        have hparts : partsBy (.map entries) (.enum vs) = [] := by simp only [partsBy, hchoice]
        refine .of_leaf hform (fun _ => Layout.noConfusion) hparts ?_
        simp only [htag, hparts, rebuildBy, Value.map?, Option.getD_some, hchoice]
        rfl
      | some p =>
        have hparts : partsBy (.map entries) (.enum vs) = [(Choice.payload entries key, p)] := by
          simp only [partsBy, hchoice]
        have hshort : (Choice.payload entries key).Short := by
          cases key with
          | none => exact .null
          | some key => exact Value.Short.getD_lookup inner key
        have hpayload := hd _ _ _ rest hshort hbody
        refine .of_row hform (fun _ => Layout.noConfusion) ?_
        simp only [htag, hparts, rebuildBy, Value.map?, Option.getD_some, hchoice,
          List.map_cons, List.head?_cons, List.mem_singleton, exists_eq_left]
        exact hpayload.map _
  | _ => exact absurd h (Encoding.stop_ne_ofBytes _ _)

/-! ## Values -/

/-- A value that was written by a layout is read back by it, if the values inside it are. -/
theorem reads_layout (ht : t.Sound) (hd : ReadBack t decode levels) {layout : Layout}
    (hform : t.form id = .ok (.plain layout)) (hv : v.Short) {bytes : List UInt8}
    (h : encodeAs t v layout = .ofBytes bytes) (rest : List UInt8) :
    Reads (decodeLayout decode layout) (bytes ++ rest)
      (rebuildBy v ((partsBy v layout).map fun p => normal t p.1 p.2) layout) rest
      (UnreadableBy t levels v id layout) := by
  obtain ⟨s, hshape, hlayout⟩ := form_plain hform
  have hsame := shape_of_layoutOf hlayout
  have hcheck := ht id s hshape
  cases layout with
  | bool =>
    cases v with
    | bool b =>
      cases h
      cases b <;> exact .of_leaf hform (fun _ => Layout.noConfusion) rfl rfl
    | _ => exact absurd h (Encoding.stop_ne_ofBytes _ _)
  | str =>
    cases hv with
    | text hlength =>
      cases h
      exact .of_leaf hform (fun _ => Layout.noConfusion) rfl (take_text hlength rest)
    | _ => exact absurd h (Encoding.stop_ne_ofBytes _ _)
  | integer k =>
    rw [encodeAs_integer] at h
    obtain ⟨n, hof, htake⟩ := takeInt_writeInt (Encoding.ofExcept_eq_ofBytes h) rest
    refine .of_leaf hform (fun _ => Layout.noConfusion) (partsBy_integer v k) ?_
    simp only [rebuildBy, hof, Except.toOption, Option.getD_some]
    exact htake
  | compact k =>
    rw [encodeAs_compact] at h
    obtain ⟨n, hof, htake⟩ :=
      take_compact (isSigned_of_layoutOf hlayout) (Encoding.ofExcept_eq_ofBytes h) rest
    refine .of_leaf hform (fun _ => Layout.noConfusion) (partsBy_compact v k) ?_
    simp only [rebuildBy, hof, Except.toOption, Option.getD_some]
    exact htake
  | bytes length =>
    rw [encodeAs_bytes] at h
    obtain ⟨bs, hof, htake⟩ := take_bytes hv (Encoding.ofExcept_eq_ofBytes h) rest
    refine .of_leaf hform (fun _ => Layout.noConfusion) (partsBy_bytes v length) ?_
    simp only [rebuildBy, hof, Except.toOption, Option.getD_some]
    exact htake
  | sequence element zeroSized => exact reads_sequence hd hform hv h rest
  | array element length => exact reads_array hd hform hv h rest
  | tuple members => exact reads_tuple hd hform hv h rest
  | struct fields => exact reads_struct hd hform hv h rest
  | enum vs =>
    cases hsame
    exact reads_enum hd hcheck hform hv h rest

/-- An option that was written is read back, if its payload is. -/
theorem reads_option (ht : t.Sound) (hd : ReadBack t decode levels) {tags : Shape.OptionForm}
    {layout : Layout} (hform : t.form id = .ok (.option tags layout)) (hv : v.Short)
    {bytes : List UInt8} (h : encode t v id = .ofBytes bytes) (rest : List UInt8) :
    Reads (do
        let tag ← takeByte
        if tag = tags.noneTag then return .null
        else if tag = tags.someTag then decode tags.payload
        else throw (.invalidTag tag))
      (bytes ++ rest) (normal t v id) rest fun e => ∃ q ∈ parts t v id, Unreadable t levels q e := by
  obtain ⟨vs, hshape, htags, -, -⟩ := form_option hform
  have hdifferent := Shape.noneTag_ne_someTag (ht id _ hshape) htags
  rw [encode_option hform] at h
  rw [normal_eq, rebuild, hform]
  split at h
  · rename_i hnull
    cases h
    have hparts : parts t v id = [] := by simp only [parts, hform, hnull, if_true]
    rw [hparts]
    refine .after_byte ?_
    rw [if_pos rfl]
    exact .of_ok rfl fun e he => by simp at he
  · rename_i hsome
    have hparts : parts t v id = [(v, tags.payload)] := by
      simp only [parts, hform, hsome, Bool.false_eq_true, if_false]
    obtain ⟨head, body, hhead, hbody, rfl⟩ := Encoding.append_eq_ofBytes h
    cases Encoding.ofBytes_inj hhead
    rw [← encode_plain (form_payload hform).1] at hbody
    rw [hparts]
    refine .after_byte ?_
    rw [if_neg (Ne.symm hdifferent), if_pos rfl]
    refine (hd v tags.payload body rest hv hbody).congr fun e => ?_
    simp only [List.mem_singleton, exists_eq_left]

/-- What a sound table writes is read back, as deep as the levels reach. -/
theorem readBack_decodeWithin (ht : t.Sound) (levels : Nat) :
    ReadBack t (decodeWithin t levels) levels := by
  induction levels with
  | zero => exact fun v id bytes rest _ _ => Or.inr ⟨_, rfl, .deep (.self _)⟩
  | succ levels ih =>
    intro v id bytes rest hv h
    cases hform : t.form id with
    | error e =>
      rw [encode_eq, encodeBy, hform] at h
      exact absurd h (Encoding.stop_ne_ofBytes _ _)
    | ok form =>
      cases form with
      | plain layout =>
        rw [encode_plain hform] at h
        have hparts : parts t v id = partsBy v layout := by rw [parts, hform]
        have hread := reads_layout ht ih hform hv h rest
        rw [normal_eq, rebuild, hform, hparts]
        simp only [decodeWithin, hform]
        refine hread.congr fun e => ?_
        rw [unreadable_succ, hparts]
        rfl
      | option tags layout =>
        have hread := reads_option ht ih hform hv h rest
        simp only [decodeWithin, hform]
        refine hread.congr fun e => ?_
        rw [unreadable_succ]
        refine ⟨Or.inr, ?_⟩
        rintro (hlong | hinner)
        · cases hlong with
          | intro hsequence =>
            rw [hform] at hsequence
            cases hsequence
        · exact hinner

end Typewire.Wire
