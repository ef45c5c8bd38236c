import Stencil.Double.Basic
import Stencil.Value.Fields

/-!
# Values

A `Value` is what a JSON text denotes: null, a truth value, a number, a string, a sequence or a
mapping. A mapping keeps its fields in order. A value that is a mapping or a sequence is a
document; the others are leaves.
-/

namespace Stencil

/-- A number: an integer, or a binary64 number. The two kinds are never equal. -/
inductive Number where
  | integer (value : Int)
  | real (value : Double)
deriving DecidableEq

/-- A value. -/
inductive Value where
  | null
  | bool (value : Bool)
  | number (value : Number)
  | string (text : String)
  | sequence (items : List Value)
  /-- Named values, in order. -/
  | mapping (fields : List (String × Value))

namespace Value

instance : Inhabited Value := ⟨null⟩

/-- A document is a mapping or a sequence. -/
def IsDocument : Value → Prop
  | sequence _ | mapping _ => True
  | _ => False

instance : DecidablePred IsDocument := fun value => by
  cases value <;> unfold IsDocument <;> infer_instance

@[simp] theorem isDocument_sequence (items : List Value) : (sequence items).IsDocument := trivial

@[simp] theorem isDocument_mapping (fields : List (String × Value)) :
    (mapping fields).IsDocument := trivial

/-- Every value of the list is a document. -/
def AllDocuments (values : List Value) : Prop :=
  ∀ value ∈ values, value.IsDocument

instance (values : List Value) : Decidable (AllDocuments values) :=
  inferInstanceAs (Decidable (∀ value ∈ values, value.IsDocument))

/-- The sequence of some texts. -/
def ofTexts (texts : List String) : Value :=
  .sequence (texts.map .string)

end Value

end Stencil
