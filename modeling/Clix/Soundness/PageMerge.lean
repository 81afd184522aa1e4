import Clix.Model.Update
import Clix.Proofs.Merging

/-! # Merging a page of an honest peer

A page may hold records of machines the reader has not paired. Such a record is to be skipped, and the rest merged.
Whether its authors are known is asked by name, and whether it is accepted by name and key: the two agree exactly
when no author of the page goes by the name of another machine that the reader has paired. What paired authors say is
refused only where it conflicts with what the reader holds.
-/

namespace Clix.History

open Except Versioned

variable {c : Crypto} {a b s t u : Store} {peer : BodyId} {progress_ : Progress} {p : Page} {row : Published}
  {rows : List Published} {epoch : String} {after : UInt64} {high : Option UInt64}

/-- Every record in a machine's history passes the machine's own checks. -/
def Honest (c : Crypto) (b : Store) : Prop :=
  ∀ key entry, b.history.entries.get? key = some entry → validateRecord c b entry.record = .ok ()

/-- The state after a page as it should be: its rows of paired authors are merged and nothing else is, and the reader
goes on behind it. -/
structure Passed (c : Crypto) (a : Store) (peer : BodyId) (p : Page) (u : Store) : Prop where
  /-- A row of paired authors is there under its certificate, as it is or with newer facts. -/
  landed : ∀ row ∈ p.entries, Published.Paired c a row → ∃ e,
    u.history.entries.get? (invocationHash c row.record.certificate) = some e ∧ row.record.Each Reaches e.record
  /-- Nothing else is merged: each slot holds the newest of what was there and what these rows say. -/
  merged : Merged c a (pairedRows c a p.entries) u
  cursor : (progress u peer).cursor = p.next
  /-- Every other row is skipped, which is remembered. -/
  skipped : (∃ row ∈ p.entries, ¬Published.Paired c a row) → (progress u peer).unknownAuthors = true

/-- A page merges, and no author of it that is not paired stands in its way. -/
def Unblocked (c : Crypto) (a : Store) (peer : BodyId) (progress_ : Progress) (p : Page) : Prop :=
  ∃ u, mergePage c a peer progress_ p = .ok u ∧ Passed c a peer p u

/-- No author of a page is known by name only, and what its paired authors say agrees with what the reader holds. -/
structure Acceptable (c : Crypto) (a : Store) (p : Page) : Prop where
  known : ∀ row ∈ p.entries, authorsKnown c a row.record.certificate = true → Published.Paired c a row
  agreeing : Agreeing c a (pairedRows c a p.entries)

/-- A row of an honest machine's page is a genuine record with the output it describes. -/
theorem ServedBy.genuine (honest : Honest c b) (served : ServedBy c b epoch after high p) (member : row ∈ p.entries) :
    row.record.Genuine c ∧ validateOutput c row = .ok () := by
  obtain ⟨key, entry, found, rfl⟩ := served.mem member
  exact ⟨(validateRecord_eq_ok.mp (honest key entry found)).1, validateOutput_exportEntry entry⟩

theorem Merged.landed (merged : Merged c s rows t) (member : row ∈ rows) : ∃ e,
    t.history.entries.get? (invocationHash c row.record.certificate) = some e ∧ row.record.Each Reaches e.record := by
  have known : t.history.entries.get? (invocationHash c row.record.certificate) ≠ none := fun absent =>
    ((merged.present _).mp absent).2 row member rfl
  obtain ⟨e, found⟩ := Option.ne_none_iff_exists'.mp known
  have reached (role : Role) : Reaches (Record.fact? row.record role) (Record.fact? e.record role) := by
    intro told offered
    have slot : t.fact? (invocationHash c row.record.certificate) role = Record.fact? e.record role := by
      rw [Store.fact?, found, Option.bind_some]
    have there : told ∈ History.told c s rows (invocationHash c row.record.certificate) role :=
      .inr ⟨row, member, rfl, offered⟩
    have latest := merged.latest (invocationHash c row.record.certificate) role
    rw [slot] at latest
    obtain ⟨held, same, above⟩ := latest.le told there
    rcases above.eq_or_lt with equal | later
    · exact .inl (latest.one told there held same equal ▸ same)
    · exact .inr ⟨held, same, later⟩
  exact ⟨e, found, merged.certificate row member e found, reached .origin, reached .runner⟩

theorem Merged.setProgress (merged : Merged c s rows t) (peer : BodyId) (q : Progress) :
    Merged c s rows (setProgress t peer q) where
  trust := merged.trust.trans ⟨rfl, rfl, rfl⟩
  clock := merged.clock
  present := merged.present
  before := merged.before
  certificate := merged.certificate
  latest := merged.latest

/-- A page of an honest peer merges as it should exactly when the reader knows no author of it by name only and its
paired authors contradict nothing that the reader holds. -/
theorem page_unblocked_iff (honest : Honest c b) (served : page c b epoch after high = .ok p) (a : Store)
    (peer : BodyId) (progress_ : Progress) (room : a.history.clock.toNat + p.entries.length < 2 ^ 64) :
    Unblocked c a peer progress_ p ↔ Acceptable c a p := by
  constructor
  · rintro ⟨u, success, -⟩
    rw [mergePage, bind_eq_ok] at success
    obtain ⟨⟨t, unknown⟩, rows, -⟩ := success
    obtain ⟨known, merged, continues⟩ := mergeRows_eq_ok (merged_refl c a) rows
    obtain ⟨certificates, held⟩ := merged.agreed
    exact ⟨known, certificates, held, continues⟩
  · intro acceptable
    obtain ⟨t, rows, merged⟩ := merged_mergeRows (merged_refl c a) acceptable.agreeing
      (fun row member => (page_eq_ok served).genuine honest member) acceptable.known room
      (if p.reset then false else progress_.unknownAuthors)
    have success := congrArg (fun result => result.bind (fun next => Except.ok (setProgress next.1 peer
      ⟨p.epoch, p.next, p.high, p.complete, next.2, none, none⟩))) rows
    refine ⟨_, success, fun row member paired => ?_, merged.setProgress peer _, ?_, ?_⟩
    · exact merged.landed (mem_pairedRows.mpr ⟨member, paired⟩)
    · rw [progress_setProgress]
    · rintro ⟨row, member, stranger⟩
      rw [progress_setProgress]
      refine (Bool.or_eq_true _ _).mpr (.inr (List.any_eq_true.mpr ⟨row, member, ?_⟩))
      rw [decide_eq_false stranger]
      rfl

namespace NamesakeExample

set_option maxRecDepth 40000

def crypto : Crypto := Crypto.transparent

def bobKey : Bytes := List.replicate 32 2

def carolKey : Bytes := List.replicate 32 3

/-- The key of another machine that goes by the name carol. -/
def namesakeKey : Bytes := List.replicate 32 4

def invocation : Invocation :=
  ⟨"job", ⟨"carol"⟩, carolKey, ⟨"bob"⟩, bobKey, ["tool"], none, none⟩

def certificate : Certificate := ⟨invocation, crypto.sign carolKey (bytes "invocation" invocation)⟩

def refusal : Fact :=
  ⟨invocationHash crypto certificate, .runner, 1, .denied "not granted", OutputRef.of crypto [], OutputRef.of crypto []⟩

def record : Record := ⟨certificate, none, some ⟨refusal, crypto.sign bobKey (bytes "fact" refusal)⟩⟩

/-- A job of a machine that is paired with bob only. -/
def strange : Invocation :=
  ⟨"other", ⟨"dave"⟩, namesakeKey, ⟨"bob"⟩, bobKey, ["tool"], none, none⟩

def strangers : Record := ⟨⟨strange, crypto.sign namesakeKey (bytes "invocation" strange)⟩, none, none⟩

/-- A machine that has refused a job of carol and keeps one of dave. -/
def bob : Store :=
  let s := Store.first crypto "bobs" "bob" bobKey
  { s with
    peers := [⟨⟨"carol"⟩, carolKey, none⟩, ⟨⟨"dave"⟩, namesakeKey, none⟩, ⟨⟨"alice"⟩, List.replicate 32 1, none⟩]
    history := { s.history with
      clock := 2
      entries := ((∅ : OrdMap String Entry).insert (invocationHash crypto certificate) ⟨record, 1, none⟩).insert
        (invocationHash crypto strangers.certificate) ⟨strangers, 2, none⟩ } }

/-- A machine that has paired bob and a machine named carol, and has seen the certificate of carol's job. -/
def alice (carol : Bytes) : Store :=
  let s := Store.first crypto "alices" "alice" (List.replicate 32 1)
  { s with
    peers := [⟨⟨"bob"⟩, bobKey, none⟩, ⟨⟨"carol"⟩, carol, none⟩]
    history := { s.history with
      clock := 1
      entries := (∅ : OrdMap String Entry).insert (invocationHash crypto certificate) (Entry.unsigned certificate 1) } }

/-- What bob answers to a first request. -/
def bobsPage : Page := ⟨"bobs", true, 2, 2, true, [⟨record, none, 1⟩, ⟨strangers, none, 2⟩]⟩

theorem bob_honest : Honest crypto bob := by
  have all : ∀ entry ∈ bob.history.entries.values, validateRecord crypto bob entry.record = .ok () := by
    decide
  exact fun key entry found => all entry ((OrdMap.mem_values_iff ..).mpr ⟨key, found⟩)

theorem bob_serves : page crypto bob "" 0 none = .ok bobsPage := by decide

theorem pairedRows_alice : pairedRows crypto (alice carolKey) bobsPage.entries = [⟨record, none, 1⟩] := by
  rw [bobsPage, pairedRows_cons_of_paired (by decide), pairedRows_cons_of_stranger (by decide)]
  rfl

theorem acceptable_alice : Acceptable crypto (alice carolKey) bobsPage where
  known := by decide
  agreeing := by
    rw [pairedRows_alice]
    have seen : (alice carolKey).history.entries.get? (invocationHash crypto record.certificate) =
      some (Entry.unsigned certificate 1) := by decide
    refine ⟨fun row member other member' _ => ?_, fun row member e held => ?_, fun before row after split role newest
      offered latest _ => ?_⟩
    · rw [List.mem_singleton.mp member, List.mem_singleton.mp member']
    · rw [List.mem_singleton.mp member] at held ⊢
      rw [← Option.some.inj (seen.symm.trans held)]
      rfl
    · obtain ⟨rfl, rfl, -⟩ := List.append_eq_singleton_iff.mp split.symm |>.resolve_right (by simp) |>.imp_right
        List.cons.inj
      rcases latest.mem newest rfl with held | ⟨other, member, -⟩
      · rw [Store.fact?, seen] at held
        cases role <;> cases held
      · cases member

/-- The page merges at a machine that has paired the same carol; dave's row is skipped. -/
theorem same_carol_unblocked : Unblocked crypto (alice carolKey) ⟨"bob"⟩ Progress.default bobsPage :=
  (page_unblocked_iff bob_honest bob_serves (alice carolKey) ⟨"bob"⟩ Progress.default (by decide)).mpr
    acceptable_alice

/-- It is refused by a machine that has paired another carol. -/
theorem namesake_blocks : Honest crypto bob ∧ page crypto bob "" 0 none = .ok bobsPage ∧
    checkPage Progress.default bobsPage = .ok () ∧
    mergePage crypto (alice namesakeKey) ⟨"bob"⟩ Progress.default bobsPage =
      .error (.protocol "history identity differs from the paired key") ∧
    ¬Unblocked crypto (alice namesakeKey) ⟨"bob"⟩ Progress.default bobsPage := by
  have refused : mergePage crypto (alice namesakeKey) ⟨"bob"⟩ Progress.default bobsPage =
      .error (.protocol "history identity differs from the paired key") := by
    have error : (mergePage crypto (alice namesakeKey) ⟨"bob"⟩ Progress.default bobsPage).map (fun _ => ()) =
        .error (.protocol "history identity differs from the paired key") := by rfl
    cases outcome : mergePage crypto (alice namesakeKey) ⟨"bob"⟩ Progress.default bobsPage <;> rw [outcome] at error <;>
      cases error
    rfl
  refine ⟨bob_honest, bob_serves, by rfl, refused, ?_⟩
  rintro ⟨u, merged, -⟩
  rw [refused] at merged
  cases merged

end NamesakeExample

end Clix.History
