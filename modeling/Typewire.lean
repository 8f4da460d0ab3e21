import Typewire.Main
import Typewire.Proofs.Entries
import Typewire.Proofs.Language.Accepted
import Typewire.Proofs.Language.Displayed
import Typewire.Proofs.Language.Joined
import Typewire.Proofs.Language.Moved
import Typewire.Proofs.Language.Pointing
import Typewire.Proofs.Language.Reading
import Typewire.Proofs.Language.Spelling
import Typewire.Proofs.Language.Tiled
import Typewire.Proofs.Language.Written
import Typewire.Proofs.Registry.Accepted
import Typewire.Proofs.Registry.Blobs
import Typewire.Proofs.Registry.Carried
import Typewire.Proofs.Registry.Codec
import Typewire.Proofs.Registry.Enums
import Typewire.Proofs.Registry.Failure
import Typewire.Proofs.Registry.Model
import Typewire.Proofs.Registry.Naming
import Typewire.Proofs.Registry.ReadBack
import Typewire.Proofs.Registry.Ready
import Typewire.Proofs.Registry.References
import Typewire.Proofs.Registry.Rules
import Typewire.Proofs.Registry.Sizes
import Typewire.Proofs.Registry.Stable
import Typewire.Proofs.Registry.States
import Typewire.Proofs.Registry.TextLength
import Typewire.Proofs.Registry.Titles
import Typewire.Proofs.Registry.Twofold
import Typewire.Proofs.Registry.World
import Typewire.Proofs.Shape.Accepted
import Typewire.Proofs.Shape.Accepting
import Typewire.Proofs.Shape.Aliases
import Typewire.Proofs.Shape.Alike
import Typewire.Proofs.Shape.Apart
import Typewire.Proofs.Shape.Called
import Typewire.Proofs.Shape.Chains
import Typewire.Proofs.Shape.Closed
import Typewire.Proofs.Shape.Definitions
import Typewire.Proofs.Shape.Denotation
import Typewire.Proofs.Shape.Denotes
import Typewire.Proofs.Shape.Descent
import Typewire.Proofs.Shape.Distinct
import Typewire.Proofs.Shape.Ending
import Typewire.Proofs.Shape.Enums
import Typewire.Proofs.Shape.Faithful
import Typewire.Proofs.Shape.Guarded
import Typewire.Proofs.Shape.Headless
import Typewire.Proofs.Shape.Heads
import Typewire.Proofs.Shape.Labels
import Typewire.Proofs.Shape.Lawful
import Typewire.Proofs.Shape.Lazy
import Typewire.Proofs.Shape.Machine
import Typewire.Proofs.Shape.Mirrored
import Typewire.Proofs.Shape.Model
import Typewire.Proofs.Shape.Orderly
import Typewire.Proofs.Shape.Parts
import Typewire.Proofs.Shape.Places
import Typewire.Proofs.Shape.Promises
import Typewire.Proofs.Shape.Recall
import Typewire.Proofs.Shape.Recursive
import Typewire.Proofs.Shape.Referring
import Typewire.Proofs.Shape.Regained
import Typewire.Proofs.Shape.Repeated
import Typewire.Proofs.Shape.Reserved
import Typewire.Proofs.Shape.Resolution
import Typewire.Proofs.Shape.Retraced
import Typewire.Proofs.Shape.Rules
import Typewire.Proofs.Shape.Scopes
import Typewire.Proofs.Shape.Settled
import Typewire.Proofs.Shape.Settling
import Typewire.Proofs.Shape.Shown
import Typewire.Proofs.Shape.Steps
import Typewire.Proofs.Shape.TextLength
import Typewire.Proofs.Shape.Titled
import Typewire.Proofs.Shape.Translated
import Typewire.Proofs.Shape.Twofold
import Typewire.Proofs.Shape.Undoing
import Typewire.Proofs.Shape.Unfailing
import Typewire.Proofs.Shape.WellFormed
import Typewire.Proofs.Shape.World
import Typewire.Proofs.Text.Hex
import Typewire.Proofs.Text.Utf8
import Typewire.Proofs.Wire.Agree
import Typewire.Proofs.Wire.Appending
import Typewire.Proofs.Wire.Blame
import Typewire.Proofs.Wire.Canonical
import Typewire.Proofs.Wire.Carried
import Typewire.Proofs.Wire.Compact
import Typewire.Proofs.Wire.DecodedForm
import Typewire.Proofs.Wire.Encoding
import Typewire.Proofs.Wire.Equal
import Typewire.Proofs.Wire.Forms
import Typewire.Proofs.Wire.Laws
import Typewire.Proofs.Wire.Local
import Typewire.Proofs.Wire.Normal
import Typewire.Proofs.Wire.Numbers
import Typewire.Proofs.Wire.Readings
import Typewire.Proofs.Wire.RoundTrip
import Typewire.Proofs.Wire.Rows
import Typewire.Proofs.Wire.Sizes
import Typewire.Proofs.Wire.TwosComplement
