import Clix.Model.Projection
import Clix.Proofs.Frame
import Clix.ToMathlib.Delimited
import Clix.ToMathlib.Gather

/-! # Rows of the projected log

A group is where it is because of what is in it, so the row of a group can be read off the local rows and the entries
about it, and a projection of one job is the rows of that job. Of the entries about an invocation the row shows the
leading one: the first of those with the highest priority.
-/

namespace Clix.History

open Except Json

variable {c : Crypto} {s : Store} {id : Option String} {g : Group} {job job' : Job} {retryOf retryOf' : Option String}

/-! ## Groups -/

theorem viewGroup_inj : viewGroup job retryOf = viewGroup job' retryOf' ↔
    job.id = job'.id ∧ job.origin = job'.origin ∧ job.body = job'.body ∧ job.argv = job'.argv ∧ retryOf = retryOf' := by
  constructor
  · intro same
    have texts := List.map_injective_iff.mpr (fun _ _ => UInt8.toNat_inj.mp) same
    simp only [array, commaSep, List.flatMap_cons, List.flatMap_nil, List.append_nil, List.cons_append,
      List.append_assoc, List.cons.injEq, true_and] at texts
    obtain ⟨ids, texts⟩ := delimited_string _ _ _ _ texts
    obtain ⟨origins, texts⟩ := delimited_string _ _ _ _ (List.cons.inj texts).2
    obtain ⟨bodies, texts⟩ := delimited_string _ _ _ _ (List.cons.inj texts).2
    obtain ⟨args, texts⟩ := delimited_strings _ _ _ _ (List.cons.inj texts).2
    obtain ⟨retries, -⟩ := delimited_optional_string _ _ _ _ (List.cons.inj texts).2
    exact ⟨ids, congrArg BodyId.mk origins, congrArg BodyId.mk bodies, args, retries⟩
  · rintro ⟨ids, origins, bodies, args, rfl⟩
    rw [viewGroup, viewGroup, ids, origins, bodies, args]

/-- The group of a local row. -/
def jobGroup (s : Store) (job : Job) : Group := viewGroup job (s.retryLinks.get? job.id)

/-- The group of an invocation. -/
def invocationGroup (i : Invocation) : Group := viewGroup ⟨i.id, i.body, i.argv, i.origin, .queued, [], []⟩ i.retryOf

/-- Whether a group is about an ID. -/
def GroupAbout (x : String) (g : Group) : Prop := ∃ job retryOf, job.id = x ∧ viewGroup job retryOf = g

/-- Whether a projection is about all that a group is about. -/
def Covers (id : Option String) (g : Group) : Prop := ∀ x, GroupAbout x g → isAbout id x = true

theorem id_of_groupAbout {x : String} (about : GroupAbout x (viewGroup job retryOf)) : job.id = x := by
  obtain ⟨other, link, rfl, same⟩ := about
  exact (viewGroup_inj.mp same).1.symm

theorem covers_none : Covers none g := fun _ _ => rfl

theorem covers_of_about {x : String} (about : GroupAbout x g) : Covers (some x) g := by
  rintro y ⟨other, link, rfl, rfl⟩
  rw [id_of_groupAbout about]
  exact beq_self_eq_true x

/-! ## The three passes -/

/-- What stands under a group after each pass. -/
def localRow (c : Crypto) (s : Store) (id : Option String) (g : Group) : Option (ℕ × View) :=
  ((localJobs s id).filter (fun j => jobGroup s j = g)).foldl (fun _ j => some (0, localView c s j)) none

def mergedRow (c : Crypto) (s : Store) (id : Option String) (g : Group) : Option (ℕ × View) :=
  ((entryRows c s id).filter (fun row => row.2.group = g)).foldl (fun old row => some (mergeRow row old))
    (localRow c s id g)

def warnedRow (c : Crypto) (s : Store) (id : Option String) (g : Group) : Option (ℕ × View) :=
  ((lostJobs s id).filter (fun j => jobGroup s j = g)).foldl (fun row j => row.map (warnRow j)) (mergedRow c s id g)

theorem get?_projectedRows (c : Crypto) (s : Store) (id : Option String) (g : Group) :
    (projectedRows c s id).get? g = warnedRow c s id g := by
  have locals : ((localJobs s id).foldl (putLocal c s) ∅).get? g = localRow c s id g :=
    OrdMap.get?_foldl (fun _ _ => OrdMap.get?_insert_self _ _ _)
      (fun _ _ _ differs => OrdMap.get?_insert_of_ne _ _ differs.symm) (fun _ => decide_eq_true_iff) _ _
  have merged : ((entryRows c s id).foldl putRow ((localJobs s id).foldl (putLocal c s) ∅)).get? g =
      mergedRow c s id g := by
    rw [mergedRow, ← locals]
    exact OrdMap.get?_foldl (fun _ _ => OrdMap.get?_insert_self _ _ _)
      (fun _ _ _ differs => OrdMap.get?_insert_of_ne _ _ differs.symm) (fun _ => decide_eq_true_iff) _ _
  have chosen (j : Job) : decide (jobGroup s j = g) = true ↔ jobGroup s j = g := decide_eq_true_iff
  rw [projectedRows, warnedRow, ← merged]
  refine OrdMap.get?_foldl (fun rows j => ?_) (fun rows j other differs => ?_) chosen _ _
  · exact OrdMap.get?_adjust_self rows _ _
  · exact OrdMap.get?_adjust_of_ne rows _ differs.symm

/-! ## One job -/

@[simp] theorem isAbout_none (x : String) : isAbout none x = true := rfl

@[simp] theorem isAbout_some {x y : String} : isAbout (some x) y = true ↔ y = x := beq_iff_eq

/-- Where several rows have an ID, both projections take the last one. -/
theorem get?_localById {x : String} (about : isAbout id x = true) :
    (localById s id).get? x = (localById s none).get? x := by
  have under (id : Option String) (about : isAbout id x = true) : (localById s id).get? x =
      (s.jobs.zipIdx.filter (fun p => decide (p.1.id = x))).foldl (fun _ p => some (p.2, p.1)) none := by
    have chosen (p : Job × ℕ) : decide (p.1.id = x) = true ↔ p.1.id = x := decide_eq_true_iff
    have found : (localById s id).get? x = ((s.jobs.zipIdx.filter (fun p => isAbout id p.1.id)).filter
        (fun p => decide (p.1.id = x))).foldl (fun _ p => some (p.2, p.1)) none := by
      refine OrdMap.get?_foldl (fun rows p => ?_) (fun rows p other differs => ?_) chosen _ _
      · exact OrdMap.get?_insert_self rows _ _
      · exact OrdMap.get?_insert_of_ne rows _ differs.symm
    rw [found, List.filter_filter]
    congr 1
    refine List.filter_congr (fun p _ => ?_)
    by_cases same : p.1.id = x
    · rw [same, about, Bool.and_true]
    · rw [decide_eq_false same, Bool.false_and]
  rw [under id about, under none rfl]

theorem entryRow_congr {e : Entry} (about : isAbout id e.record.certificate.invocation.id = true) :
    entryRow c s (localById s id) e = entryRow c s (localById s none) e := by
  rw [entryRow, entryRow, get?_localById about]

theorem entryRow_group {jobs : OrdMap String (ℕ × Job)} {e : Entry} {row : ℕ × View}
    (shown : entryRow c s jobs e = some row) : row.2.group = invocationGroup e.record.certificate.invocation := by
  obtain ⟨fact, -, rfl⟩ := Option.map_eq_some_iff.mp shown
  exact viewGroup_inj.mpr ⟨rfl, rfl, rfl, rfl, rfl⟩

/-- The rows of the entries of a group. -/
def groupRows (c : Crypto) (s : Store) (g : Group) : List (ℕ × View) :=
  (s.history.entries.values.filter (fun e => decide (invocationGroup e.record.certificate.invocation = g))).filterMap
    (entryRow c s (localById s none))

theorem about_invocationGroup (i : Invocation) : GroupAbout i.id (invocationGroup i) := ⟨_, _, rfl, rfl⟩

theorem filter_entryRows (covers : Covers id g) :
    (entryRows c s id).filter (fun row => row.2.group = g) = groupRows c s g := by
  rw [entryRows, groupRows, List.filter_filterMap, List.filterMap_filter, List.filterMap_filter]
  refine List.filterMap_congr (fun e _ => ?_)
  by_cases here : invocationGroup e.record.certificate.invocation = g
  · have shown := covers _ (here ▸ about_invocationGroup e.record.certificate.invocation)
    rw [if_pos shown, if_pos (decide_eq_true here), entryRow_congr shown]
    cases made : entryRow c s (localById s none) e with
    | none => rfl
    | some row => exact Option.filter_some_pos (decide_eq_true ((entryRow_group made).trans here))
  · have other : ¬decide (invocationGroup e.record.certificate.invocation = g) = true := by simpa using here
    rw [if_neg other]
    split_ifs
    · refine Option.filter_eq_none_iff.mpr (fun row there => ?_)
      rwa [entryRow_group there]
    · rfl

theorem filter_localJobs (covers : Covers id g) :
    (localJobs s id).filter (fun j => jobGroup s j = g) = s.jobs.filter (fun j => jobGroup s j = g) := by
  rw [localJobs, List.filter_filter]
  refine List.filter_congr (fun j _ => ?_)
  by_cases here : jobGroup s j = g
  · rw [covers j.id ⟨j, _, rfl, here⟩, Bool.and_true]
  · rw [decide_eq_false here, Bool.false_and]

/-- Nothing but what is about an ID stands in its projection. -/
theorem warnedRow_of_not_about {x : String} (other : ¬GroupAbout x g) : warnedRow c s (some x) g = none := by
  have jobs : (localJobs s (some x)).filter (fun j => jobGroup s j = g) = [] := by
    refine List.filter_eq_nil_iff.mpr (fun j listed here => other ?_)
    exact ⟨j, _, isAbout_some.mp (List.mem_filter.mp listed).2, of_decide_eq_true here⟩
  have rows : (entryRows c s (some x)).filter (fun row => row.2.group = g) = [] := by
    refine List.filter_eq_nil_iff.mpr (fun row listed here => other ?_)
    obtain ⟨e, there, made⟩ := List.mem_filterMap.mp listed
    exact ⟨_, _, isAbout_some.mp (List.mem_filter.mp there).2, (entryRow_group made).symm.trans (of_decide_eq_true here)⟩
  have lost : (lostJobs s (some x)).filter (fun j => jobGroup s j = g) = [] := by
    refine List.filter_eq_nil_iff.mpr (fun j listed here => other ?_)
    exact ⟨j, _, isAbout_some.mp (List.mem_filter.mp (List.mem_filter.mp listed).1).2, of_decide_eq_true here⟩
  rw [warnedRow, lost, mergedRow, rows, localRow, jobs]
  rfl

theorem filter_lostJobs (covers : Covers id g) : (lostJobs s id).filter (fun j => jobGroup s j = g) =
    (s.jobs.filter (fun j => jobGroup s j = g)).filter
      (fun j => decide (j.body.name = s.bodyName) && isUncertain j.status) := by
  rw [lostJobs, List.filter_comm, filter_localJobs covers]

/-- What stands under a group, in any projection that is about it. -/
theorem warnedRow_congr (covers : Covers id g) : warnedRow c s id g = warnedRow c s none g := by
  rw [warnedRow, warnedRow, filter_lostJobs covers, filter_lostJobs covers_none, mergedRow, mergedRow,
    filter_entryRows covers, filter_entryRows covers_none, localRow, localRow, filter_localJobs covers,
    filter_localJobs covers_none]

/-! ## A row and its group -/

theorem group_mergeRow {row : ℕ × View} {old : Option (ℕ × View)} (new : row.2.group = g)
    (before : ∀ r, old = some r → r.2.group = g) : (mergeRow row old).2.group = g := by
  cases old with
  | none => exact new
  | some old =>
    rw [mergeRow]
    split_ifs
    · exact new
    · exact before old rfl

theorem group_warnRow (row : ℕ × View) : (warnRow job row).2.group = row.2.group := by
  rw [warnRow]
  split_ifs
  · exact viewGroup_inj.mpr ⟨rfl, rfl, rfl, rfl, rfl⟩
  · rfl

theorem group_of_localRow {row : ℕ × View} (stands : localRow c s id g = some row) : row.2.group = g := by
  have each : ∀ j ∈ (localJobs s id).filter (fun j => jobGroup s j = g), ∀ o : Option (ℕ × View),
      (∀ r, o = some r → r.2.group = g) → ∀ r, some (0, localView c s j) = some r → r.2.group = g := by
    intro j listed o _ r made
    cases made
    exact of_decide_eq_true (List.mem_filter.mp listed).2
  exact List.foldl_holds each (fun r absent => by cases absent) stands

theorem group_of_mergedRow {row : ℕ × View} (stands : mergedRow c s id g = some row) : row.2.group = g := by
  refine List.foldl_holds (fun r listed o before made same => ?_) (fun r first => group_of_localRow first) stands
  cases same
  exact group_mergeRow (of_decide_eq_true (List.mem_filter.mp listed).2) before

theorem group_of_warnedRow {row : ℕ × View} (stands : warnedRow c s id g = some row) : row.2.group = g := by
  refine List.foldl_holds (fun j listed o before made same => ?_) (fun r merged => group_of_mergedRow merged) stands
  obtain ⟨r, old, rfl⟩ := Option.map_eq_some_iff.mp same
  exact (group_warnRow r).trans (before r old)

/-! ## The rows of a log -/

/-- A projection of one job is the rows of that job. -/
theorem entries_projectedRows (c : Crypto) (s : Store) (x : String) : (projectedRows c s (some x)).entries =
    (projectedRows c s none).entries.filter (fun e => decide (e.2.2.job.id = x)) := by
  refine OrdMap.entries_eq_filter (fun g row => ?_)
  rw [get?_projectedRows, get?_projectedRows, decide_eq_true_iff]
  by_cases about : GroupAbout x g
  · rw [warnedRow_congr (covers_of_about about)]
    refine (and_iff_left_of_imp (fun stands => ?_)).symm
    have same : row.2.group = g := group_of_warnedRow stands
    exact id_of_groupAbout (same.symm ▸ about)
  · rw [warnedRow_of_not_about about]
    refine iff_of_false (by simp) (fun ⟨stands, same⟩ => about ?_)
    exact ⟨row.2.job, row.2.retryOf, same, group_of_warnedRow stands⟩

theorem sequence_congr {v : View} (about : isAbout id v.job.id = true) :
    sequence s (localById s id) v = sequence s (localById s none) v := by
  rw [sequence, sequence, get?_localById about]

theorem displayOrder_trans (a b d : ℕ × View) (first : DisplayOrder a b) (second : DisplayOrder b d) :
    DisplayOrder a d := by
  unfold DisplayOrder at *
  rcases first with below | ⟨same, le⟩
  · exact .inl (second.elim below.trans (fun equal => equal.1 ▸ below))
  · rcases second with below | ⟨same', le'⟩
    · exact .inl (same ▸ below)
    · exact .inr ⟨same.trans same', le.trans le'⟩

theorem displayOrder_total (a b : ℕ × View) : DisplayOrder a b ∨ DisplayOrder b a := by
  unfold DisplayOrder
  rcases lt_trichotomy a.1 b.1 with below | same | above
  · exact .inl (.inl below)
  · rcases le_total a.2.job.id b.2.job.id with le | le
    · exact .inl (.inr ⟨same, le⟩)
    · exact .inr (.inr ⟨same.symm, le⟩)
  · exact .inr (.inl above)

/-- The projection of one job is what the log shows of it, in the same order. -/
theorem viewsForJob_eq (c : Crypto) (s : Store) (x : String) :
    viewsForJob c s x = (views c s).filter (fun v => decide (v.job.id = x)) := by
  have rows : (projectedRows c s (some x)).values.map (fun row => (sequence s (localById s (some x)) row.2, arranged row.2)) =
      ((projectedRows c s none).values.map (fun row => (sequence s (localById s none) row.2, arranged row.2))).filter
        (fun shown => decide (shown.2.job.id = x)) := by
    rw [OrdMap.values, OrdMap.values, entries_projectedRows, List.map_map, List.map_map, List.filter_map]
    refine List.map_congr_left (fun e listed => ?_)
    have same : e.2.2.job.id = x := of_decide_eq_true (List.mem_filter.mp listed).2
    exact Prod.ext (sequence_congr (isAbout_some.mpr same)) rfl
  rw [viewsForJob, views, projectedViews, projectedViews, rows,
    ← List.filter_insertionSort displayOrder_trans displayOrder_total, List.filter_map]
  rfl

/-! ## What a row shows -/

/-- The first item of the highest priority in a list. -/
theorem exists_leading {α : Type} (rank : α → ℕ) : ∀ {l : List α}, l ≠ [] →
    ∃ l₁ x l₂, l = l₁ ++ x :: l₂ ∧ (∀ y ∈ l₁, rank y < rank x) ∧ ∀ y ∈ l₂, rank y ≤ rank x
  | [], absent => absurd rfl absent
  | a :: l, _ => by
    by_cases only : l = []
    · exact ⟨[], a, [], by rw [only]; rfl, List.forall_mem_nil _, List.forall_mem_nil _⟩
    · obtain ⟨l₁, x, l₂, split, before, after⟩ := exists_leading rank only
      by_cases below : rank a < rank x
      · exact ⟨a :: l₁, x, l₂, by rw [split]; rfl, List.forall_mem_cons.mpr ⟨below, before⟩, after⟩
      · refine ⟨[], a, l, rfl, List.forall_mem_nil _, fun y listed => ?_⟩
        rw [split] at listed
        have bound : rank y ≤ rank x := by
          rcases List.mem_append.mp listed with early | late
          · exact (before y early).le
          · rcases List.mem_cons.mp late with rfl | late
            · exact le_rfl
            · exact after y late
        exact bound.trans (not_lt.mp below)

/-- A row that is ahead of all before it, and not behind any after it, is the one that is shown. -/
theorem foldl_mergeRow {l₁ l₂ : List (ℕ × View)} {x : ℕ × View} {old : Option (ℕ × View)}
    (start : ∀ r, old = some r → r.1 < x.1) (before : ∀ y ∈ l₁, y.1 < x.1) (after : ∀ y ∈ l₂, y.1 ≤ x.1) :
    ∃ observations, (l₁ ++ x :: l₂).foldl (fun old row => some (mergeRow row old)) old =
      some (x.1, { x.2 with observations := observations }) := by
  rw [List.foldl_append, List.foldl_cons]
  have early : ∀ r, l₁.foldl (fun old row => some (mergeRow row old)) old = some r → r.1 < x.1 := by
    intro r made
    refine List.foldl_holds (fun y listed o low v same => ?_) start made
    cases same
    cases o with
    | none => exact before y listed
    | some o =>
      rw [mergeRow]
      split_ifs
      · exact before y listed
      · exact low o rfl
  have taken : ∃ observations, mergeRow x (l₁.foldl (fun old row => some (mergeRow row old)) old) =
      (x.1, { x.2 with observations := observations }) := by
    cases first : l₁.foldl (fun old row => some (mergeRow row old)) old with
    | none => exact ⟨x.2.observations, rfl⟩
    | some o => exact ⟨_, by rw [mergeRow, if_pos (early o first)]⟩
  obtain ⟨observations, taken⟩ := taken
  rw [taken]
  clear taken early start before
  induction l₂ generalizing observations with
  | nil => exact ⟨observations, rfl⟩
  | cons y l₂ ih =>
    obtain ⟨first, rest⟩ := List.forall_mem_cons.mp after
    rw [List.foldl_cons, mergeRow, if_neg (not_lt.mpr first)]
    exact ih rest _

/-- The observations of a row, if there is one. -/
def observed (row : Option (ℕ × View)) : List Observation := row.elim [] (·.2.observations)

/-- Observations are kept, whichever row is shown. -/
theorem observations_mergeRow (row : ℕ × View) (old : Option (ℕ × View)) :
    (mergeRow row old).2.observations.Perm (observed old ++ row.2.observations) := by
  cases old with
  | none => exact .refl _
  | some old =>
    rw [mergeRow]
    split_ifs
    · exact List.perm_append_comm
    · exact .refl _

theorem observed_foldl (l : List (ℕ × View)) (old : Option (ℕ × View)) :
    (observed (l.foldl (fun old row => some (mergeRow row old)) old)).Perm
      (observed old ++ l.flatMap (·.2.observations)) := by
  induction l generalizing old with
  | nil => rw [List.foldl_nil, List.flatMap_nil, List.append_nil]
  | cons x l ih =>
    refine (ih _).trans ?_
    rw [List.flatMap_cons, ← List.append_assoc]
    exact (observations_mergeRow x old).append_right _

/-- The entries of a group that hold a fact lead to its row by their standing, and the first of them at a tie. -/
structure Leads (s : Store) (g : Group) (key : String) (e : Entry) : Prop where
  found : s.history.entries.get? key = some e
  group : invocationGroup e.record.certificate.invocation = g
  told : e.record.selected ≠ none
  most : ∀ key' e', s.history.entries.get? key' = some e' → invocationGroup e'.record.certificate.invocation = g →
    e'.record.selected ≠ none → (standing e'.record).1 < (standing e.record).1 ∨
      ((standing e'.record).1 = (standing e.record).1 ∧ key ≤ key')

theorem Leads.unique {key key' : String} {e e' : Entry} (leads : Leads s g key e) (also : Leads s g key' e') :
    key = key' ∧ e = e' := by
  have same : key = key' := by
    rcases leads.most key' e' also.found also.group also.told with low | ⟨tie, le⟩ <;>
      rcases also.most key e leads.found leads.group leads.told with low' | ⟨tie', le'⟩
    · exact absurd low (lt_asymm low')
    · exact absurd tie' low.ne'
    · exact absurd tie low'.ne'
    · exact le_antisymm le le'
  subst same
  exact ⟨rfl, Option.some.inj (leads.found.symm.trans also.found)⟩

theorem entryRow_rank {jobs : OrdMap String (ℕ × Job)} {e : Entry} {row : ℕ × View}
    (shown : entryRow c s jobs e = some row) : row.1 = (standing e.record).1 ∧ 0 < row.1 := by
  obtain ⟨fact, -, rfl⟩ := Option.map_eq_some_iff.mp shown
  refine ⟨rfl, ?_⟩
  change 0 < (standing e.record).1
  unfold standing
  split
  · dsimp only
    split_ifs <;> decide
  · split_ifs <;> decide

theorem groupRows_eq (c : Crypto) (s : Store) (g : Group) : groupRows c s g =
    (s.history.entries.entries.filter (fun p => decide (invocationGroup p.2.record.certificate.invocation = g))).filterMap
      (fun p => entryRow c s (localById s none) p.2) := by
  rw [groupRows, OrdMap.values, List.filter_map, List.filterMap_map]
  rfl

/-- The rows of a group start with those that are behind the leading one, and none is ahead of it. -/
theorem exists_leads (c : Crypto) (told : groupRows c s g ≠ []) : ∃ l₁ row l₂ key e, groupRows c s g = l₁ ++ row :: l₂ ∧
    (∀ y ∈ l₁, y.1 < row.1) ∧ (∀ y ∈ l₂, y.1 ≤ row.1) ∧ entryRow c s (localById s none) e = some row ∧
      Leads s g key e := by
  obtain ⟨l₁, row, l₂, split, before, after⟩ := exists_leading (fun row : ℕ × View => row.1) told
  refine ⟨l₁, row, l₂, ?_⟩
  have rows := split
  rw [groupRows_eq, List.filterMap_eq_append_iff] at rows
  obtain ⟨v₁, v₂, pairs, front, back⟩ := rows
  obtain ⟨skipped, ⟨key, e⟩, v₃, whole, quiet, shown, rest⟩ := List.filterMap_eq_cons_iff.mp back
  rw [whole] at pairs
  have sorted := s.history.entries.sorted.filter
    (fun p => decide (invocationGroup p.2.record.certificate.invocation = g))
  rw [pairs, List.pairwise_append, List.pairwise_append, List.pairwise_cons] at sorted
  have here : (key, e) ∈ s.history.entries.entries ∧ invocationGroup e.record.certificate.invocation = g := by
    have member : (key, e) ∈ v₁ ++ (skipped ++ (key, e) :: v₃) :=
      List.mem_append_right _ (List.mem_append_right _ List.mem_cons_self)
    rw [← pairs, List.mem_filter] at member
    exact ⟨member.1, of_decide_eq_true member.2⟩
  refine ⟨key, e, split, before, after, shown, OrdMap.get?_eq_some_iff.mpr here.1, here.2, ?_, ?_⟩
  · intro absent
    rw [entryRow, absent] at shown
    cases shown
  intro key' e' found group has
  obtain ⟨fact, selected⟩ := Option.ne_none_iff_exists'.mp has
  have made : ∃ row', entryRow c s (localById s none) e' = some row' := ⟨_, by rw [entryRow, selected, Option.map_some]⟩
  obtain ⟨row', made⟩ := made
  have member : (key', e') ∈ v₁ ++ (skipped ++ (key, e) :: v₃) :=
    pairs ▸ List.mem_filter.mpr ⟨OrdMap.get?_eq_some_iff.mp found, decide_eq_true group⟩
  rw [← (entryRow_rank shown).1, ← (entryRow_rank made).1]
  rcases List.mem_append.mp member with early | late
  · exact .inl (before row' (front ▸ List.mem_filterMap.mpr ⟨_, early, made⟩))
  · rcases List.mem_append.mp late with silent | late
    · rw [quiet _ silent] at made
      cases made
    · rcases List.mem_cons.mp late with same | late
      · cases same
        rw [made] at shown
        cases shown
        exact .inr ⟨rfl, le_rfl⟩
      · have bound := after row' (rest ▸ List.mem_filterMap.mpr ⟨_, late, made⟩)
        exact (lt_or_eq_of_le bound).imp_right (fun tie => ⟨tie, (sorted.2.1.2.1.1 _ late).le⟩)

/-- The row of a group that some entry tells of is that of the leading entry, with all observations. -/
theorem mergedRow_of_entries (told : groupRows c s g ≠ []) : ∃ key e fact observations,
    Leads s g key e ∧ e.record.selected = some fact ∧ mergedRow c s none g = some ((standing e.record).1,
      { entryView c s (((localById s none).get? e.record.certificate.invocation.id).map (·.2)) e fact with
        observations := observations }) ∧ observations.Perm ((groupRows c s g).flatMap (·.2.observations)) := by
  obtain ⟨l₁, row, l₂, key, e, split, before, after, shown, leads⟩ := exists_leads c told
  obtain ⟨fact, selected, rfl⟩ := Option.map_eq_some_iff.mp shown
  have plain : ∀ r, localRow c s none g = some r → r.1 = 0 ∧ r.2.observations = [] := by
    intro r stands
    have each : ∀ j ∈ (localJobs s none).filter (fun j => jobGroup s j = g), ∀ o : Option (ℕ × View),
        (∀ r, o = some r → r.1 = 0 ∧ r.2.observations = []) → ∀ r, some (0, localView c s j) = some r →
          r.1 = 0 ∧ r.2.observations = [] := by
      intro j _ o _ r made
      cases made
      exact ⟨rfl, rfl⟩
    exact List.foldl_holds each (fun r absent => by cases absent) stands
  obtain ⟨observations, merged⟩ := foldl_mergeRow
    (fun r stands => (plain r stands).1 ▸ (entryRow_rank shown).2) before after
  rw [← split] at merged
  refine ⟨key, e, fact, observations, leads, selected, ?_, ?_⟩
  · rw [mergedRow, filter_entryRows covers_none]
    exact merged
  · have kept := observed_foldl (groupRows c s g) (localRow c s none g)
    have empty : observed (localRow c s none g) = [] := by
      cases stands : localRow c s none g with
      | none => rfl
      | some r => exact (plain r stands).2
    rw [merged, empty, List.nil_append] at kept
    exact kept

/-! ## Where no two rows share an ID -/

/-- The local row of a group. -/
def jobOf (s : Store) (g : Group) : Option Job := s.jobs.find? (fun j => jobGroup s j = g)

/-- The local row of a group, if this machine lost its outcome. -/
def lostJob (s : Store) (g : Group) : Option Job :=
  (jobOf s g).filter (fun j => decide (j.body.name = s.bodyName) && isUncertain j.status)

/-- A view with the unsaved diagnostic of its local row. -/
def warned (s : Store) (v : View) : View := ((lostJob s v.group).elim (0, v) (fun j => warnRow j (0, v))).2

theorem filter_jobGroup (ids : (s.jobs.map (·.id)).Nodup) (g : Group) :
    s.jobs.filter (fun j => jobGroup s j = g) = (jobOf s g).toList :=
  List.filter_eq_toList ids (fun a b here there => by
    have same := (of_decide_eq_true here).trans (of_decide_eq_true there).symm
    exact (viewGroup_inj.mp same).1)

theorem localById_job (ids : (s.jobs.map (·.id)).Nodup) (x : String) :
    ((localById s none).get? x).map (·.2) = s.job? x := by
  have jobs : (s.jobs.zipIdx.filter (fun p => decide (p.1.id = x))).map (·.1) = (s.job? x).toList := by
    have chosen : s.jobs.filter (fun j => j.id == x) = (s.job? x).toList :=
      List.filter_eq_toList ids (fun a b here there => (beq_iff_eq.mp here).trans (beq_iff_eq.mp there).symm)
    rw [← chosen]
    conv_rhs => rw [← List.zipIdx_map_fst 0 s.jobs, List.filter_map]
    rfl
  have found : (localById s none).get? x =
      (s.jobs.zipIdx.filter (fun p => decide (p.1.id = x))).foldl (fun _ p => some (p.2, p.1)) none := by
    have chosen (p : Job × ℕ) : decide (p.1.id = x) = true ↔ p.1.id = x := decide_eq_true_iff
    have all : s.jobs.zipIdx.filter (fun p => isAbout none p.1.id) = s.jobs.zipIdx := List.filter_eq_self.mpr (fun _ _ => rfl)
    rw [localById, all]
    refine OrdMap.get?_foldl (fun rows p => ?_) (fun rows p other differs => ?_) chosen _ _
    · exact OrdMap.get?_insert_self rows _ _
    · exact OrdMap.get?_insert_of_ne rows _ differs.symm
  rw [found, List.foldl_last, Option.map_map]
  have last := congrArg List.getLast? jobs
  rw [List.getLast?_map] at last
  rw [show ((fun p : ℕ × Job => p.2) ∘ fun p : Job × ℕ => (p.2, p.1)) = (·.1) from rfl, last]
  cases s.job? x <;> rfl

theorem localRow_eq (ids : (s.jobs.map (·.id)).Nodup) (g : Group) :
    localRow c s none g = (jobOf s g).map (fun j => (0, localView c s j)) := by
  rw [localRow, filter_localJobs covers_none, filter_jobGroup ids, List.foldl_last]
  cases jobOf s g <;> rfl

theorem warnedRow_eq (ids : (s.jobs.map (·.id)).Nodup) (g : Group) : warnedRow c s none g =
    (mergedRow c s none g).map (fun row => (lostJob s g).elim row (fun j => warnRow j row)) := by
  have lost : ((jobOf s g).toList.filter (fun j => decide (j.body.name = s.bodyName) && isUncertain j.status)) =
      (lostJob s g).toList := by
    rw [lostJob]
    cases jobOf s g with
    | none => rfl
    | some j => cases kept : decide (j.body.name = s.bodyName) && isUncertain j.status <;> simp [kept, Option.filter]
  rw [warnedRow, filter_lostJobs covers_none, filter_jobGroup ids, lost]
  cases lostJob s g with
  | none => exact Option.map_id'.symm
  | some j => rfl

/-! ## The views of a log -/

theorem mem_views {v : View} : v ∈ views c s ↔ ∃ g row, warnedRow c s none g = some row ∧ v = arranged row.2 := by
  rw [views, projectedViews, List.mem_map]
  simp only [List.mem_insertionSort, List.mem_map, OrdMap.mem_values_iff, get?_projectedRows]
  constructor
  · rintro ⟨_, ⟨row, ⟨g, stands⟩, rfl⟩, rfl⟩
    exact ⟨g, row, stands, rfl⟩
  · rintro ⟨g, row, stands, rfl⟩
    exact ⟨_, ⟨row, ⟨g, stands⟩, rfl⟩, rfl⟩

/-- The log shows one row of each group. -/
theorem groups_views (c : Crypto) (s : Store) : ((views c s).map View.group).Perm (projectedRows c s none).keys := by
  have each : (projectedRows c s none).entries.map (fun e => e.2.2.group) = (projectedRows c s none).keys :=
    List.map_congr_left (fun e listed => group_of_warnedRow
      ((get?_projectedRows c s none e.1).symm.trans (OrdMap.get?_eq_some_iff.mpr listed)))
  rw [views, projectedViews, List.map_map, ← each]
  refine ((List.perm_insertionSort DisplayOrder _).map _).trans ?_
  rw [List.map_map, OrdMap.values, List.map_map]
  exact .refl _

theorem groups_nodup (c : Crypto) (s : Store) : ((views c s).map View.group).Nodup :=
  (groups_views c s).nodup_iff.mpr (OrdMap.keys_nodup _)

theorem warned_of_lost {v : View} {j : Job} (lost : lostJob s v.group = some j) :
    warned s v = (warnRow j (0, v)).2 := by rw [warned, lost, Option.elim_some]

theorem warned_of_not_lost {v : View} (kept : lostJob s v.group = none) : warned s v = v := by
  rw [warned, kept, Option.elim_none]

/-- A row shows its local job, or the entry that leads to it with all observations of the group. -/
theorem view_cases (ids : (s.jobs.map (·.id)).Nodup) {v : View} (shown : v ∈ views c s) :
    (∃ j, jobOf s v.group = some j ∧ groupRows c s v.group = [] ∧ v = localView c s j) ∨
    ∃ key e fact observations, Leads s v.group key e ∧ e.record.selected = some fact ∧
      observations.Perm ((groupRows c s v.group).flatMap (·.2.observations)) ∧
      v = warned s { entryView c s (s.job? e.record.certificate.invocation.id) e fact with
        observations := observations } := by
  obtain ⟨g, row, stands, rfl⟩ := mem_views.mp shown
  have here : (arranged row.2).group = g := group_of_warnedRow stands
  rw [here]
  rw [warnedRow_eq ids, Option.map_eq_some_iff] at stands
  obtain ⟨row, merged, rfl⟩ := stands
  by_cases told : groupRows c s g = []
  · refine .inl ?_
    rw [mergedRow, filter_entryRows covers_none, told, List.foldl_nil, localRow_eq ids, Option.map_eq_some_iff] at merged
    obtain ⟨j, found, rfl⟩ := merged
    refine ⟨j, found, told, ?_⟩
    cases lost : lostJob s g with
    | none => rfl
    | some j' =>
      have same := (Option.filter_eq_some_iff.mp lost).1
      rw [found] at same
      cases same
      have same : ¬(0, localView c s j).2.job.status ≠ j.status := not_not.mpr rfl
      rw [Option.elim_some, warnRow, if_neg same]
      rfl
  · obtain ⟨key, e, fact, observations, leads, selected, stands, perm⟩ := mergedRow_of_entries told
    rw [stands] at merged
    cases merged
    refine .inr ⟨key, e, fact, observations.insertionSort (fun a b => a.invocation ≤ b.invocation), leads, selected,
      (List.perm_insertionSort _ _).trans perm, ?_⟩
    rw [localById_job ids]
    have group : View.group { entryView c s (s.job? e.record.certificate.invocation.id) e fact with
        observations := observations.insertionSort (fun a b => a.invocation ≤ b.invocation) } = g :=
      leads.group ▸ viewGroup_inj.mpr ⟨rfl, rfl, rfl, rfl, rfl⟩
    rw [warned, group]
    cases lostJob s g with
    | none => rfl
    | some j =>
      rw [Option.elim_some, Option.elim_some, warnRow, warnRow]
      dsimp only
      split_ifs <;> rfl

/-- A group is shown when there is a local row or a fact of it. -/
theorem exists_view (ids : (s.jobs.map (·.id)).Nodup) :
    (∃ v ∈ views c s, v.group = g) ↔ jobOf s g ≠ none ∨ groupRows c s g ≠ [] := by
  constructor
  · rintro ⟨v, shown, rfl⟩
    rcases view_cases ids shown with ⟨j, found, -⟩ | ⟨key, e, fact, -, leads, selected, -⟩
    · exact .inl (by rw [found]; simp)
    · refine .inr (fun none => ?_)
      rw [groupRows_eq, List.filterMap_eq_nil_iff] at none
      have absent := none (key, e) (List.mem_filter.mpr
        ⟨OrdMap.get?_eq_some_iff.mp leads.found, decide_eq_true leads.group⟩)
      rw [entryRow, selected] at absent
      cases absent
  · intro there
    have stands : ∃ row, warnedRow c s none g = some row := by
      rw [warnedRow_eq ids]
      by_cases told : groupRows c s g = []
      · obtain ⟨j, found⟩ := Option.ne_none_iff_exists'.mp (there.resolve_right (not_not.mpr told))
        rw [mergedRow, filter_entryRows covers_none, told, List.foldl_nil, localRow_eq ids, found]
        exact ⟨_, rfl⟩
      · obtain ⟨key, e, fact, observations, -, -, merged, -⟩ := mergedRow_of_entries told
        rw [merged]
        exact ⟨_, rfl⟩
    obtain ⟨row, stands⟩ := stands
    exact ⟨arranged row.2, mem_views.mpr ⟨g, row, stands, rfl⟩, group_of_warnedRow stands⟩

end Clix.History
