import Clix.Model.PinTree
import Clix.ToMathlib.JsonValue

/-! # The text of a receipt

A receipt is kept as JSON text, with its fields in the order of their names, and read back from it. Neither a receipt
nor a fingerprint may have fields of other names, or a field twice.
-/

namespace Clix

open Json

instance : ToValue Fingerprint :=
  ⟨fun order f => record order ["hash", "mode"] [toValue order f.hash, toValue order f.mode]⟩

instance : FromValue Fingerprint :=
  ⟨fun word v => do
    let fields ← v.knownFields ["hash", "mode"] 2
    return ⟨← fieldOf word fields "hash", ← fieldOf word fields "mode"⟩, none⟩

namespace Pin

instance : ToValue RecoveryState := ⟨fun _ state => .string state.text⟩

instance : FromValue RecoveryState :=
  ⟨fun _ v => do
    let (name, content) ← v.variant
    match name with
    | "pending" => plain .pending content
    | "retained" => plain .retained content
    | "resolved" => plain .resolved content
    | "discarding" => plain .discarding content
    | _ => none, none⟩

/-- An absent ID is left out. -/
def optionalField (order : Fields → Fields) (name : String) (id : Option String) : Fields :=
  (id.map (fun id => (name, toValue order id))).toList

def RecoveryReceipt.fields (order : Fields → Fields) (r : RecoveryReceipt) : Fields :=
  optionalField order "discard_token" r.discardToken ++
  [("expected", toValue order r.expected), ("path", toValue order r.path),
    ("replacement", toValue order r.replacement)] ++
  optionalField order "source_receipt" r.sourceReceipt ++
  [("state", toValue order r.state), ("version", toValue order r.version)]

instance : ToValue RecoveryReceipt := ⟨fun order r => .object (order (r.fields order))⟩

/-- The fields of a receipt as they are declared, the optional ones last. -/
def RecoveryReceipt.names : List String :=
  ["path", "expected", "replacement", "version", "state", "source_receipt", "discard_token"]

instance : FromValue RecoveryReceipt :=
  ⟨fun word v => do
    let fields ← v.knownFields RecoveryReceipt.names 5
    return {
      path := ← fieldOf word fields "path"
      expected := ← fieldOf word fields "expected"
      replacement := ← fieldOf word fields "replacement"
      version := ← fieldOf word fields "version"
      state := ← fieldOf word fields "state"
      sourceReceipt := ← fieldOf word fields "source_receipt"
      discardToken := ← fieldOf word fields "discard_token" }, none⟩

/-- What the text of a receipt stands for. No number of a receipt depends on the machine. -/
def RecoveryReceipt.fromText (text : Bytes) : Option RecoveryReceipt :=
  (fromSlice asListed text).bind (fromValue 0)

end Pin

end Clix
