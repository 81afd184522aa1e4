import Clix.Proofs.PinForward
import Clix.Soundness.PinGate

/-! # Paths that a peer may name

The check of a path reads it as the platform does, where an empty part or a dot inside a path is no component, while
manifests are looked up by the text of a path. An accepted path with such a part therefore names a file that another
accepted path names too. Every other accepted path is the one name of its file.
-/

namespace List

variable {α : Type} [BEq α] [LawfulBEq α] {a : α} {l part : List α}

theorem not_mem_of_mem_splitOn (member : part ∈ l.splitOn a) : a ∉ part := by
  induction l generalizing part with
  | nil =>
    rw [splitOn_nil, mem_singleton] at member
    rw [member]
    exact not_mem_nil
  | cons x rest ih =>
    rw [splitOn_cons_eq_if_modifyHead] at member
    split_ifs at member with here
    · rcases mem_cons.mp member with rfl | later
      · exact not_mem_nil
      · exact ih later
    · obtain ⟨first, others, split⟩ := exists_cons_of_ne_nil (splitOn_ne_nil a rest)
      rw [split] at member ih
      rcases mem_cons.mp member with rfl | later
      · rw [mem_cons, not_or]
        exact ⟨fun same => here (by rw [same, beq_self_eq_true]), ih mem_cons_self⟩
      · exact ih (mem_cons_of_mem first later)

end List

namespace Clix.Pin

open Except

variable {c : Crypto} {rel other : String} {l r v : Option Fingerprint} {ch : Change}

/-- Components between slashes, none of them empty, a dot, or kept out. -/
def Canonical (rel : String) : Prop := ∀ part ∈ parts rel, part ∉ ["", ".", "..", ".git", recovery]

instance (rel : String) : Decidable (Canonical rel) := inferInstanceAs (Decidable (∀ _ ∈ _, _))

/-- What the check of a path looks for: it starts with nothing or a dot, or one of its parts is kept out. -/
def Refused (rel : String) : Prop :=
  (parts rel).head? = some "" ∨ (parts rel).head? = some "." ∨ ∃ part ∈ parts rel, part ∈ ["..", ".git", recovery]

/-- A part that is no component of a path. -/
def Skipped (part : String) : Prop := part = "" ∨ part = "."

theorem validPath_iff_not_refused : validPath rel = .ok () ↔ ¬Refused rel := by
  rw [validPath_eq_ok, isNormal, excluded, Refused]
  cases split : parts rel with
  | nil => simp [parts] at split
  | cons first rest =>
    simp only [List.head?_cons, Option.some.injEq, List.mem_cons, Bool.and_eq_true, bne_iff_ne, ne_eq,
      Bool.not_eq_true', List.contains_eq_mem, decide_eq_false_iff_not, not_or, not_exists, not_and, List.not_mem_nil,
      or_false]
    grind

theorem canonical_iff : Canonical rel ↔ ¬Refused rel ∧ ∀ part ∈ parts rel, ¬Skipped part := by
  constructor
  · intro canonical
    refine ⟨?_, fun part member skipped => canonical part member (by rcases skipped with rfl | rfl <;> simp)⟩
    rintro (first | first | ⟨part, member, out⟩)
    · exact canonical "" (List.mem_of_head? first) (by simp)
    · exact canonical "." (List.mem_of_head? first) (by simp)
    · exact canonical part member (by simp only [List.mem_cons] at out ⊢; tauto)
  · rintro ⟨kept, plain⟩ part member out
    simp only [List.mem_cons, List.not_mem_nil, or_false] at out
    rcases out with rfl | rfl | out
    · exact plain "" member (.inl rfl)
    · exact plain "." member (.inr rfl)
    · exact kept (.inr (.inr ⟨part, member, by simpa using out⟩))

/-- A canonical path is the text of its place. -/
theorem Canonical.place (canonical : Canonical rel) : place rel = parts rel := by
  refine List.filter_eq_self.mpr (fun part member => ?_)
  have plain := (canonical_iff.mp canonical).2 part member
  rw [Skipped, not_or] at plain
  simpa using plain

theorem Canonical.valid (canonical : Canonical rel) : validPath rel = .ok () :=
  validPath_iff_not_refused.mpr (canonical_iff.mp canonical).1

/-! ## What names a file -/

/-- The sides of a change that one path needs. -/
theorem changeAt_eq_some (changed : changeAt rel l r v = some ch) : ch.path = rel ∧
    ch.expected = (if ch.toRemote = true then r else l) ∧ ch.new = (if ch.toRemote = true then l else r) := by
  unfold changeAt at changed
  split_ifs at changed <;> cases changed
  · exact ⟨rfl, rfl, rfl⟩
  · exact ⟨rfl, rfl, rfl⟩

/-- Everything that looks at a path speaks about the one file at its components. -/
structure OneFile (c : Crypto) (rel : String) : Prop where
  distinct : ∀ other, Canonical other → place other = place rel → other = rel
  readable : ∀ live found, read live rel = .ok found → found = live.file? (parts rel)
  listed : ∀ t files, scan c t = .ok files → files.get? rel = (t.live.file? (parts rel)).map (·.fingerprint c)
  planned : ∀ t u loc rem base a b changes merged, scan c t = .ok loc → scan c u = .ok rem →
    plan loc rem base a b = .ok (changes, merged) → ∀ ch ∈ changes, ch.path = rel →
      ch.expected = ((if ch.toRemote = true then u else t).live.file? (parts rel)).map (·.fingerprint c) ∧
      ch.new = ((if ch.toRemote = true then t else u).live.file? (parts rel)).map (·.fingerprint c)
  gate : ∀ host ids peer request m path, request.path = some rel →
    (rpcPut c host ids peer request m).1.tree.live.file? path ≠ m.tree.live.file? path →
      path = parts rel ∧ (m.tree.live.file? path).map (·.fingerprint c) = (baseline m.store peer.ownerPk).get? rel
  written : parentDir rel ++ [fileName rel] = parts rel
  /-- The destination that is compared with granted binaries. -/
  destination : place rel = parts rel

theorem Canonical.oneFile (canonical : Canonical rel) : OneFile c rel where
  distinct other also same := by
    rw [also.place, canonical.place] at same
    rw [← join_parts other, same, join_parts]
  readable live found success := canonical.place ▸ (read_eq_ok success).2.2.1
  listed t files success := by
    rw [scan_get? success canonical.place (validPath_eq_ok.mp canonical.valid).2.2, canonical.place]
  planned t u loc rem base a b changes merged first second success ch member here := by
    obtain ⟨-, rfl, -⟩ := plan_eq_ok.mp success
    obtain ⟨path, -, changed⟩ := List.mem_filterMap.mp member
    obtain ⟨same, expected, new⟩ := changeAt_eq_some changed
    rw [same] at here
    subst here
    have kept := (validPath_eq_ok.mp canonical.valid).2.2
    rw [scan_get? first canonical.place kept, scan_get? second canonical.place kept, canonical.place] at expected new
    refine ⟨expected.trans ?_, new.trans ?_⟩ <;> split_ifs <;> rfl
  gate host ids peer request m path named changed := by
    obtain ⟨rel', new, hasPath, -, here, recorded, -⟩ := rpcPut_changed changed
    rw [named] at hasPath
    cases hasPath
    exact ⟨here.trans canonical.place, recorded⟩
  written := (plain_split canonical.place).2.trans canonical.place
  destination := canonical.place

/-! ## Another spelling -/

theorem parts_plain (valid : validPath rel = .ok ()) : parts (plain rel) = place rel := by
  refine parts_join_of_plain (fun part member => ?_) ?_
  · have inside : part ∈ parts rel := List.mem_of_mem_filter member
    obtain ⟨text, split, rfl⟩ := List.mem_map.mp inside
    rw [String.toList_ofList]
    exact List.not_mem_of_mem_splitOn split
  · -- An accepted path starts with a component.
    obtain ⟨first, rest, split⟩ := List.exists_cons_of_ne_nil (show parts rel ≠ [] by simp [parts])
    have kept := validPath_iff_not_refused.mp valid
    rw [Refused, split, List.head?_cons, Option.some.injEq, Option.some.injEq, not_or, not_or] at kept
    rw [place, split, List.filter_cons_of_pos (by simpa using ⟨kept.1, kept.2.1⟩)]
    exact List.cons_ne_nil _ _

/-- The plain spelling of an accepted path is canonical and leads to the same place. -/
theorem canonical_plain (valid : validPath rel = .ok ()) : Canonical (plain rel) ∧ place (plain rel) = place rel := by
  have canonical : Canonical (plain rel) := by
    have kept := validPath_iff_not_refused.mp valid
    intro part member out
    rw [parts_plain valid] at member
    obtain ⟨inside, component⟩ := List.mem_filter.mp member
    simp only [List.mem_cons, List.not_mem_nil, or_false] at out
    rcases out with rfl | rfl | out
    · cases component
    · cases component
    · exact kept (.inr (.inr ⟨part, inside, by simpa using out⟩))
  exact ⟨canonical, canonical.place.trans (parts_plain valid)⟩

/-! ## The check -/

/-- What is to hold of a path: it is accepted exactly if it is canonical, and then it is the one name of its file. -/
structure WellNamed (c : Crypto) (rel : String) : Prop where
  accepted : validPath rel = .ok () ↔ Canonical rel
  oneFile : validPath rel = .ok () → OneFile c rel

/-- A path is well named exactly if none of its parts is empty or a dot, or it is refused anyway. Every other path is
accepted, and another accepted path leads to the same place. -/
theorem wellNamed_iff (c : Crypto) (rel : String) :
    (WellNamed c rel ↔ Refused rel ∨ ∀ part ∈ parts rel, ¬Skipped part) ∧
      (¬WellNamed c rel → validPath rel = .ok () ∧ ∃ other, other ≠ rel ∧ Canonical other ∧
        validPath other = .ok () ∧ place other = place rel) := by
  have whole : WellNamed c rel ↔ Refused rel ∨ ∀ part ∈ parts rel, ¬Skipped part := by
    constructor
    · intro named
      by_cases kept : Refused rel
      · exact .inl kept
      · exact .inr (canonical_iff.mp (named.accepted.mp (validPath_iff_not_refused.mpr kept))).2
    · rintro (kept | plain)
      · have refused : validPath rel ≠ .ok () := fun valid => validPath_iff_not_refused.mp valid kept
        exact ⟨iff_of_false refused (fun canonical => refused canonical.valid), fun valid => absurd valid refused⟩
      · have same : validPath rel = .ok () ↔ Canonical rel := by
          rw [validPath_iff_not_refused, canonical_iff]
          exact ⟨fun kept => ⟨kept, plain⟩, And.left⟩
        exact ⟨same, fun valid => (same.mp valid).oneFile⟩
  refine ⟨whole, fun unnamed => ?_⟩
  rw [whole, not_or] at unnamed
  obtain ⟨kept, skipped⟩ := unnamed
  have valid := validPath_iff_not_refused.mpr kept
  obtain ⟨canonical, same⟩ := canonical_plain valid
  refine ⟨valid, plain rel, fun itself => skipped ?_, canonical, canonical.valid, same⟩
  exact (canonical_iff.mp (itself ▸ canonical)).2

namespace PathExample

theorem fits_a : Live.empty.Fits [] "a" := by decide

theorem fits_b : (Live.empty.put [] "a" .dir fits_a).Fits ["a"] "b" := by decide

/-- A tree with the file `a/b`. -/
def tree : Tree where
  live := (Live.empty.put [] "a" .dir fits_a).put ["a"] "b" (.file ⟨[104], 0o644⟩) fits_b
  saved := ∅

/-- A path with a dot is accepted, though it is not canonical, and names the file of another accepted path. -/
theorem respelled : ¬(validPath "a/./b" = .ok () ↔ Canonical "a/./b") ∧ "a/./b" ≠ "a/b" ∧
    validPath "a/b" = .ok () ∧ read tree.live "a/./b" = .ok (some ⟨[104], 0o644⟩) ∧
    read tree.live "a/b" = .ok (some ⟨[104], 0o644⟩) := by
  decide

end PathExample

end Clix.Pin
