import Clix.Model.PinReceipt

/-! # A receipt is read back from its text

Whatever a receipt tells, its text stands for it.
-/

namespace Clix

open Json

section Fingerprints

variable {word depth : ℕ}

instance : LawfulValue Fingerprint where
  text_toValue f := by
    refine (text_record ["hash", "mode"] _).trans ?_
    simp only [List.zip_cons_cons, List.zip_nil_right, List.map_cons, List.map_nil, text_toValue]
    rfl

theorem fits_fingerprint (f : Fingerprint) : Fits asListed (depth + 1) (toValue asListed f) := by
  have hash : Carries 0 depth f.hash := carries_string _
  have mode : Carries 0 depth f.mode := carries_uInt32 _
  refine keeps_asListed.fits_record ?_
  simp only [List.forall_mem_cons]
  exact ⟨hash.fits keeps_asListed, mode.fits keeps_asListed, List.forall_mem_nil _⟩

theorem fromValue_fingerprint (f : Fingerprint) : fromValue word (toValue asListed f) = some f := by
  have hash : Carries word 0 f.hash := carries_string _
  have mode : Carries word 0 f.mode := carries_uInt32 _
  have known : Value.knownFields ["hash", "mode"] 2
      (.object [("hash", toValue asListed f.hash), ("mode", toValue asListed f.mode)]) =
        some [("hash", toValue asListed f.hash), ("mode", toValue asListed f.mode)] := by
    rw [Value.knownFields, if_pos (by simp)]
  change (Value.knownFields ["hash", "mode"] 2
    (.object [("hash", toValue asListed f.hash), ("mode", toValue asListed f.mode)])).bind _ = _
  rw [known, Option.bind_some]
  simp [fieldOf, OrdMap.lookupEntry, hash.back keeps_asListed, mode.back keeps_asListed]

/-- A fingerprint that may be missing is told from null. -/
theorem fromValue_fingerprint? (o : Option Fingerprint) : fromValue word (toValue asListed o) = some o := by
  cases o with
  | none => rfl
  | some f =>
    have read : fromValue word (toValue asListed f) = some f := fromValue_fingerprint f
    change (fromValue word (toValue asListed f)).map some = _
    rw [read, Option.map_some]

theorem fits_fingerprint? (o : Option Fingerprint) : Fits asListed (depth + 1) (toValue asListed o) := by
  cases o with
  | none => trivial
  | some f => exact fits_fingerprint f

end Fingerprints

namespace Pin

theorem text_state (state : RecoveryState) : (toValue asListed state).text = Json.string state.text :=
  Value.text.eq_def (.string state.text)

theorem fromValue_state (state : RecoveryState) : fromValue 0 (toValue asListed state) = some state := by
  cases state <;> rfl

/-- A receipt is written as its JSON value is. -/
instance : LawfulValue RecoveryReceipt where
  text_toValue r := by
    obtain ⟨path, expected, replacement, version, state, source, token⟩ := r
    refine (Value.text.eq_def _).trans ?_
    change object ((RecoveryReceipt.fields asListed _).map (fun e => field e.1 e.2.text)) = _
    cases source <;> cases token <;>
    · simp only [RecoveryReceipt.fields, optionalField, Option.map_none, Option.map_some, Option.toList_none,
        Option.toList_some, List.nil_append, List.cons_append, List.map_cons, List.map_nil, text_toValue, text_state]
      rfl

theorem fits_receipt (r : RecoveryReceipt) : Fits asListed Json.maxDepth (toValue asListed r) := by
  refine ⟨rfl, fun e member => ?_⟩
  have text (s : String) : Fits asListed 126 (toValue asListed s) :=
    have carried : Carries 0 126 s := carries_string s
    carried.fits keeps_asListed
  have optional {name : String} {id : Option String} (listed : e ∈ optionalField asListed name id) :
      Fits asListed 126 e.2 := by
    cases id with
    | none => cases listed
    | some id =>
      cases List.mem_singleton.mp listed
      exact text id
  have state : Fits asListed 126 (toValue asListed r.state) := text r.state.text
  change e ∈ r.fields asListed at member
  simp only [RecoveryReceipt.fields, List.mem_append, List.mem_cons, List.not_mem_nil, or_false] at member
  rcases member with ((listed | rfl | rfl | rfl) | listed) | rfl | rfl
  · exact optional listed
  · exact fits_fingerprint? r.expected
  · exact text r.path
  · exact fits_fingerprint? r.replacement
  · exact optional listed
  · exact state
  · exact text r.version

/-- The text of a receipt stands for it. -/
theorem fromText_toVec (r : RecoveryReceipt) : RecoveryReceipt.fromText (toVec r) = some r := by
  rw [RecoveryReceipt.fromText, ← text_toValue r, fromSlice_text (fits_receipt r), Option.bind_some]
  have known : Value.knownFields RecoveryReceipt.names 5 (.object (r.fields asListed)) = some (r.fields asListed) := by
    obtain ⟨path, expected, replacement, version, state, source, token⟩ := r
    rw [Value.knownFields]
    refine if_pos ?_
    cases source <;> cases token <;> simp [RecoveryReceipt.fields, optionalField, RecoveryReceipt.names]
  change (Value.knownFields RecoveryReceipt.names 5 (.object (r.fields asListed))).bind _ = some r
  rw [known, Option.bind_some]
  obtain ⟨path, expected, replacement, version, state, source, token⟩ := r
  have text (s : String) : fromValue 0 (toValue asListed s) = some s := rfl
  have told (s : String) : fromValue 0 (toValue asListed s) = some (some s) := rfl
  cases source <;> cases token <;>
  · simp [RecoveryReceipt.fields, optionalField, fieldOf, OrdMap.lookupEntry, text, told, fromValue_fingerprint?,
      fromValue_state, FromValue.missing]

end Pin

end Clix
