import Clix.Model.Pin

/-! # What a plan contains

A plan succeeds when every path is valid and was not changed in two ways; then it has one change for each
path on which the sides differ, and its merged manifest is the three-way merge at every path.
-/

namespace Clix.Pin

open Except

variable {c : Crypto} {loc rem base : Manifest} {a b path : String} {l r v : Option Fingerprint}

theorem mem_paths {manifests : List Manifest} :
    path ∈ paths manifests ↔ ∃ m ∈ manifests, m.get? path ≠ none := by
  rw [paths, OrdMap.mem_keys_iff, OrdMap.contains_extend]
  simp only [OrdMap.contains_empty, Bool.false_or, List.contains_eq_mem, decide_eq_true_eq, List.mem_flatMap,
    OrdMap.mem_keys_iff, OrdMap.contains_eq_true_iff, ← Option.ne_none_iff_exists']

theorem paths_nodup (manifests : List Manifest) : (paths manifests).Nodup := OrdMap.keys_nodup _

theorem validPath_eq_ok : validPath path = .ok () ↔
    isNormal path = true ∧ recovery ∉ parts path ∧ excluded path = false := by
  rw [validPath, refuseIf_eq_ok]
  simp [not_or]

/-- The change that a path needs. -/
def changeAt (path : String) (l r v : Option Fingerprint) : Option Change :=
  if l = r then none else if l = v then some ⟨path, l, r, false⟩ else some ⟨path, r, l, true⟩

theorem planPath_eq_ok {change : Option Change} {selected : Option Fingerprint} :
    planPath a b path l r v = .ok (change, selected) ↔ validPath path = .ok () ∧
      ThreeWay.Agree l r v ∧ change = changeAt path l r v ∧ selected = ThreeWay.merge l r v := by
  unfold planPath changeAt ThreeWay.merge ThreeWay.Agree
  rw [bind_eq_ok]
  constructor
  · rintro ⟨⟨⟩, valid, success⟩
    refine ⟨valid, ?_⟩
    split_ifs at success ⊢ with same left right <;> cases success
    · exact ⟨.inl same, rfl, rfl⟩
    · exact ⟨.inr (.inl left), rfl, rfl⟩
    · exact ⟨.inr (.inr right), rfl, rfl⟩
  · rintro ⟨valid, agree, rfl, rfl⟩
    refine ⟨(), valid, ?_⟩
    split_ifs with same left right
    · rfl
    · rfl
    · rfl
    · exact absurd agree (by simp [same, left, right])

/-- The change that some path of two manifests needs. -/
def changeFor (loc rem base : Manifest) (path : String) : Option Change :=
  changeAt path (loc.get? path) (rem.get? path) (base.get? path)

/-- The merge of two manifests at a path. -/
def mergeFor (loc rem base : Manifest) (path : String) : Option Fingerprint :=
  ThreeWay.merge (loc.get? path) (rem.get? path) (base.get? path)

/-- A path that can be planned. -/
def Plannable (loc rem base : Manifest) (path : String) : Prop :=
  validPath path = .ok () ∧ ThreeWay.Agree (loc.get? path) (rem.get? path) (base.get? path)

theorem planPaths_isOk {changes : List Change} {merged : Manifest} {ps : List String} :
    (∃ planned, planPaths loc rem base a b changes merged ps = .ok planned) ↔
      ∀ p ∈ ps, Plannable loc rem base p := by
  induction ps generalizing changes merged with
  | nil => simp [planPaths]
  | cons p rest ih =>
    simp only [planPaths, bind_eq_ok, Prod.exists, planPath_eq_ok, List.forall_mem_cons]
    constructor
    · rintro ⟨cs, m, change, selected, ⟨valid, agree, -, -⟩, success⟩
      exact ⟨⟨valid, agree⟩, ih.mp ⟨_, success⟩⟩
    · rintro ⟨⟨valid, agree⟩, others⟩
      obtain ⟨⟨cs, m⟩, success⟩ := ih.mpr others
      exact ⟨cs, m, _, _, ⟨valid, agree, rfl, rfl⟩, success⟩

theorem planPaths_eq_ok {changes cs : List Change} {merged m : Manifest} {ps : List String}
    (success : planPaths loc rem base a b changes merged ps = .ok (cs, m)) :
    cs = changes ++ ps.filterMap (changeFor loc rem base) ∧
      ∀ p, m.get? p = if p ∈ ps then (mergeFor loc rem base p).or (merged.get? p) else merged.get? p := by
  induction ps generalizing changes merged with
  | nil =>
    cases success
    simp
  | cons p rest ih =>
    simp only [planPaths, bind_eq_ok, Prod.exists, planPath_eq_ok] at success
    obtain ⟨change, selected, ⟨-, -, rfl, rfl⟩, success⟩ := success
    obtain ⟨rfl, lookup⟩ := ih success
    refine ⟨?_, fun q => ?_⟩
    · rw [List.append_assoc, List.filterMap_cons, changeFor]
      cases changeAt p (loc.get? p) (rem.get? p) (base.get? p) <;> rfl
    · have first : ((ThreeWay.merge (loc.get? p) (rem.get? p) (base.get? p)).elim merged (merged.insert p)).get? q =
          if q = p then (mergeFor loc rem base p).or (merged.get? q) else merged.get? q := by
        rw [mergeFor]
        cases ThreeWay.merge (loc.get? p) (rem.get? p) (base.get? p) with
        | none => simp
        | some fp => rw [Option.elim_some, OrdMap.get?_insert, Option.some_or]
      rw [lookup, first]
      by_cases here : q = p
      · subst here
        by_cases later : q ∈ rest <;> cases mergeFor loc rem base q <;> simp [later]
      · by_cases later : q ∈ rest <;> simp [here, later]

theorem mergeFor_of_not_mem (absent : path ∉ paths [loc, rem, base]) : mergeFor loc rem base path = none := by
  rw [mem_paths] at absent
  push Not at absent
  simp only [List.mem_cons, List.not_mem_nil, or_false, forall_eq_or_imp, forall_eq] at absent
  rw [mergeFor, absent.1, absent.2.1, ThreeWay.merge_self]

/-- A plan succeeds exactly when every path is valid and unambiguous. -/
theorem plan_isOk : (∃ planned, plan loc rem base a b = .ok planned) ↔
    ∀ p ∈ paths [loc, rem, base], Plannable loc rem base p := planPaths_isOk

theorem plan_eq_ok {changes : List Change} {merged : Manifest} :
    plan loc rem base a b = .ok (changes, merged) ↔
      (∀ p ∈ paths [loc, rem, base], Plannable loc rem base p) ∧
      changes = (paths [loc, rem, base]).filterMap (changeFor loc rem base) ∧
      ∀ p, merged.get? p = mergeFor loc rem base p := by
  have spec {cs m} (success : plan loc rem base a b = .ok (cs, m)) :
      cs = (paths [loc, rem, base]).filterMap (changeFor loc rem base) ∧
        ∀ p, m.get? p = mergeFor loc rem base p := by
    obtain ⟨changes, lookup⟩ := planPaths_eq_ok success
    refine ⟨changes, fun p => ?_⟩
    rw [lookup, OrdMap.get?_empty]
    split_ifs with listed
    · rw [Option.or_none]
    · rw [mergeFor_of_not_mem listed]
  constructor
  · intro success
    exact ⟨plan_isOk.mp ⟨_, success⟩, spec success⟩
  · rintro ⟨plannable, rfl, lookup⟩
    obtain ⟨⟨cs, m⟩, success⟩ := plan_isOk.mpr plannable
    obtain ⟨rfl, found⟩ := spec success
    rw [success, OrdMap.ext_get? (fun p => (found p).trans (lookup p).symm)]

/-! ## Common baselines -/

theorem commonBaseline_eq_ok {left right chosen : Manifest} :
    commonBaseline left right loc rem = .ok chosen ↔
      (left = right ∧ chosen = left) ∨ (left ≠ right ∧ loc = rem ∧ chosen = loc) := by
  unfold commonBaseline
  by_cases same : left = right
  · simp [same, eq_comm]
  · by_cases equal : loc = rem <;> simp [same, equal, eq_comm]

end Clix.Pin
