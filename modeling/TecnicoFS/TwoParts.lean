-- The two parts of the project keep their files in different ways, with one block or
-- with many. On files of one block, calls that append nothing get the same answers
-- from both.
import TecnicoFS.Parte1.StoreRefinement
import TecnicoFS.Parte2.RemoteCalls
import Mathlib.Algebra.Order.BigOperators.Group.Finset

open file_store

namespace tecnicofs

/-- What both parts allow: no appending, files of one block, and calls through open handles. -/
def CarefulInBoth (st : Store CString UInt8) (c : FileCall) : Prop :=
  Plain parte2.limits st c.inStore ∧ parte2.Careful st (parte2.opOf c)

/-- Both states show the same files and the same handles. -/
def SameFiles (s : parte1.State) (t : parte2.State) : Prop :=
  ∃ st, parte1.Shows s st ∧ parte2.Shows t st

/-! ## The first part within the bounds of the second one -/

/-- Files of one block cost one block each, so the disk of the first part has room for them. -/
theorem fitsDisk_of_ok {st : Store CString UInt8} (hok : Ok parte2.limits st) :
    parte1.FitsDisk st := by
  have hone : ∀ k, parte1.blocksCost 0 (parte1.divCeil (st.bytes k).length BLOCK_SIZE) ≤ 1 := by
    intro k
    have hceil : parte1.divCeil (st.bytes k).length BLOCK_SIZE ≤ 1 := by
      apply parte1.divCeil_le_iff.mpr
      rw [Nat.mul_one]
      exact hok.size_le k
    calc parte1.blocksCost 0 (parte1.divCeil (st.bytes k).length BLOCK_SIZE)
        ≤ parte1.blocksCost 0 1 := parte1.blocksCost_mono (Nat.zero_le _) hceil
      _ = 1 := by decide
  have hsum : parte1.sizesCost st.names.length st.bytes ≤ st.names.length := by
    calc parte1.sizesCost st.names.length st.bytes
        ≤ ∑ _k ∈ Finset.range st.names.length, 1 := Finset.sum_le_sum fun k _ => hone k
      _ = (Finset.range st.names.length).card := (Finset.card_eq_sum_ones _).symm
      _ = st.names.length := Finset.card_range _
  have hfiles : st.names.length ≤ MAX_DIR_ENTRIES := hok.files_le
  unfold MAX_DIR_ENTRIES at hfiles
  unfold parte1.FitsDisk DATA_BLOCKS
  omega

section
variable {st : Store CString UInt8} {c : FileCall} (hc : CarefulInBoth st c)
include hc

/-- The store of the first part does the same as the one of the second part. -/
theorem exec_same : exec parte2.limits st c.inStore = exec parte1.limits st c.inStore := by
  apply exec_congr
  · rfl
  · rfl
  · decide
  · exact hc.1

theorem careful_parte1 (hok : Ok parte2.limits st) : parte1.Careful st (parte1.opOf c) := by
  have hnext : Ok parte2.limits (exec parte2.limits st c.inStore).2 := by
    rw [← parte2.storeExec_opOf]
    exact parte2.storeExec_ok hok hc.2
  have hsame := exec_same hc
  obtain ⟨_, hcareful⟩ := hc
  cases c with
  | tfsOpen name flags => exact hcareful
  | tfsClose fhandle => exact trivial
  | tfsRead fhandle len => exact trivial
  | tfsWrite fhandle buffer =>
    refine ⟨hcareful.2, ?_⟩
    have hfits := fitsDisk_of_ok hnext
    rw [hsame] at hfits
    exact hfits

end

/-! ## The answers -/

theorem parte1_refines : refinement.Refines (fun s c => parte1.seenExec s (parte1.opOf c))
    (answerIn parte2.limits) CarefulInBoth (fun r => (r.ret, r.bytes)) id
    (fun s st => parte1.Shows s st ∧ Ok parte2.limits st) := by
  constructor
  rintro s st c ⟨h, hok⟩ hc
  obtain ⟨r, s', he, rfl, hshows⟩ := h.exec (careful_parte1 hc hok)
  have hnext := parte2.storeExec_ok hok hc.2
  have hsame : parte1.storeExec st (parte1.opOf c) =
      parte1.seenReply (exec parte2.limits st c.inStore) := by
    rw [exec_same hc]
    cases c <;> rfl
  rw [hsame] at hshows he
  rw [parte2.storeExec_opOf] at hnext
  exact ⟨_, s', he, rfl, hshows, hnext⟩

theorem parte2_refines : refinement.Refines (fun t c => parte2.exec t (parte2.opOf c))
    (answerIn parte2.limits) CarefulInBoth (fun r => (r.ret, r.bytes)) id parte2.Shows := by
  constructor
  intro t st c h hc
  obtain ⟨r, t', he, hshown, hshows⟩ := h.exec hc.2
  rw [parte2.storeExec_opOf] at hshown hshows
  refine ⟨r, t', he, ?_, hshows⟩
  exact Prod.ext (congrArg (fun x => x.1) hshown) (congrArg (fun x => x.2.1) hshown)

/-- On files of one block and without appending, every run of calls gets the same answers from
both parts, and leaves the same files and handles. -/
theorem both_parts_answer_alike {s : parte1.State} {t : parte2.State} (hs : parte1.Initial s)
    (ht : parte2.Initial t) {calls : List FileCall}
    (hcalls : runs.Meets (answerIn parte2.limits) CarefulInBoth empty calls) :
    ∃ answers s' answers' t',
      refinement.run parte1.seenExec s (calls.map parte1.opOf) = some (answers, s') ∧
      refinement.run parte2.exec t (calls.map parte2.opOf) = some (answers', t') ∧
      answers.map (fun r => (r.ret, r.bytes)) = answers'.map (fun r => (r.ret, r.bytes)) ∧
      SameFiles s' t' := by
  obtain ⟨answers, s', hrun, hsame, hshows, _⟩ :=
    parte1_refines.run ⟨hs.shows, empty_ok parte2.limits⟩ hcalls
  obtain ⟨answers', t', hrun', hsame', hshows'⟩ := parte2_refines.run ht.shows hcalls
  refine ⟨answers, s', answers', t', ?_, ?_, hsame.trans hsame'.symm, _, hshows, hshows'⟩
  · rw [refinement.run_map]
    exact hrun
  · rw [refinement.run_map]
    exact hrun'

/-- `/a` is written, closed, opened again and read. -/
def writesAndReads : List FileCall :=
  [.tfsOpen parte2.pathA TFS_O_CREAT, .tfsWrite 0 [5, 6], .tfsClose 0, .tfsOpen parte2.pathA 0,
    .tfsRead 0 8]

theorem two_bytes_are_read :
    (refinement.run parte2.exec parte2.firstState (writesAndReads.map parte2.opOf)).map
      (fun r => r.1.map fun a => (a.ret, a.bytes)) =
    some [(0, []), (2, []), (0, []), (0, []), (2, [5, 6])] := by
  decide +kernel

theorem two_bytes_are_read_in_both_parts : ∃ answers s' answers' t',
    refinement.run parte1.seenExec (parte1.tfsInit parte1.zeroed).2
      (writesAndReads.map parte1.opOf) = some (answers, s') ∧
    refinement.run parte2.exec parte2.firstState (writesAndReads.map parte2.opOf) =
      some (answers', t') ∧
    answers.map (fun r => (r.ret, r.bytes)) = [(0, []), (2, []), (0, []), (0, []), (2, [5, 6])] ∧
    answers'.map (fun r => (r.ret, r.bytes)) = [(0, []), (2, []), (0, []), (0, []), (2, [5, 6])] ∧
    SameFiles s' t' := by
  have hcalls : runs.Meets (answerIn parte2.limits) CarefulInBoth empty writesAndReads := by
    have hname : ∀ flags, NameFits (some parte2.pathA) flags := fun _ _ =>
      ⟨parte2.pathA, rfl, by decide, by decide⟩
    refine ⟨⟨rfl, hname _, fun h => by cases h⟩, ⟨fun i h hget => ?_, by decide, by decide⟩,
      ⟨trivial, trivial⟩, ⟨rfl, hname _, fun h => by cases h⟩, ⟨trivial, rfl⟩, trivial⟩
    cases hget
    decide
  obtain ⟨answers, s', answers', t', he, he', hsame, hfiles⟩ :=
    both_parts_answer_alike ⟨parte1.zeroed, rfl⟩ parte2.firstState_initial hcalls
  have hread := two_bytes_are_read
  rw [he', Option.map_some, Option.some.injEq] at hread
  exact ⟨answers, s', answers', t', he, he', hsame.trans hread, hread, hfiles⟩

end tecnicofs
