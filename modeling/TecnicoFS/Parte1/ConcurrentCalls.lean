-- Threads over the store of files: each call of each thread answers like the store at
-- one moment between its begin and its end, as long as no step is careless and the
-- threads ask only for what is allowed in every order.
import TecnicoFS.Parte1.StoreRefinement
import TecnicoFS.Parte1.ThreadSafety
import Mathlib.Algebra.BigOperators.Ring.Finset

open linearizability file_store

namespace tecnicofs.parte1

/-! ## Calls that are careful in every order -/

/-- Short names for new files, no truncation and no copies. -/
def Modest : Op → Prop
  | .tfsOpen name flags => NameFits name flags ∧ hasFlag flags TFS_O_TRUNC = false
  | .tfsCopyToExternalFs _ _ => False
  | _ => True

instance : (op : Op) → Decidable (Modest op)
  | .tfsOpen _ _ => inferInstanceAs (Decidable (_ ∧ _))
  | .tfsCopyToExternalFs _ _ => inferInstanceAs (Decidable False)
  | .tfsClose _ | .tfsRead _ _ | .tfsWrite _ _ => inferInstanceAs (Decidable True)

/-- How many bytes the call has to write. -/
def bytesGiven : Op → Nat
  | .tfsWrite _ buffer => buffer.length
  | _ => 0

/-- So many bytes have room on the disk however they are spread over the files: a file costs less
than two blocks more than its bytes fill. -/
abbrev BYTES_FIT : Nat := (DATA_BLOCKS - 1 - 2 * MAX_DIR_ENTRIES) * BLOCK_SIZE

/-- The bytes of all files. -/
def storeBytes (st : Store CString UInt8) : Nat :=
  ∑ k ∈ Finset.range st.names.length, (st.bytes k).length

theorem blocksCost_le (len : Nat) :
    blocksCost 0 (divCeil len BLOCK_SIZE) * BLOCK_SIZE ≤ len + 2 * BLOCK_SIZE := by
  obtain ⟨_, hlt⟩ := (divCeil_eq_iff (m := len)).mp rfl
  generalize divCeil len BLOCK_SIZE = b at hlt
  unfold blocksCost
  unfold BLOCK_SIZE at *
  split <;> omega

theorem fitsDisk_of_bytes {st : Store CString UInt8} (hok : Ok limits st)
    (hbytes : storeBytes st ≤ BYTES_FIT) : FitsDisk st := by
  have hcost : sizesCost st.names.length st.bytes * BLOCK_SIZE ≤
      storeBytes st + st.names.length * (2 * BLOCK_SIZE) := by
    unfold sizesCost storeBytes
    rw [Finset.sum_mul]
    calc _ ≤ ∑ k ∈ Finset.range st.names.length, ((st.bytes k).length + 2 * BLOCK_SIZE) :=
          Finset.sum_le_sum fun k _ => blocksCost_le _
      _ = _ := by
          rw [Finset.sum_add_distrib, Finset.sum_const_nat fun _ _ => rfl, Finset.card_range]
  have hfiles : st.names.length ≤ MAX_DIR_ENTRIES := hok.files_le
  unfold FitsDisk
  simp only [BYTES_FIT, MAX_DIR_ENTRIES, DATA_BLOCKS, BLOCK_SIZE] at *
  omega

theorem storeBytes_addHandle (st : Store CString UInt8) (h : Handle) :
    storeBytes (st.addHandle limits h).2 = storeBytes st := by
  rcases addHandle_cases limits st h with ⟨_, he⟩ | ⟨i, _, _, he⟩ <;> rw [he]
  rfl

theorem storeBytes_created {st : Store CString UInt8} (name : CString) :
    storeBytes (st.created name) = storeBytes st := by
  have hlen : (st.created name).names.length = st.names.length + 1 := by simp [Store.created]
  unfold storeBytes
  rw [hlen, Finset.sum_range_succ]
  simp only [Store.created, Function.update_self, List.length_nil, Nat.add_zero]
  apply Finset.sum_congr rfl
  intro k hk
  rw [Function.update_of_ne (Nat.ne_of_lt (Finset.mem_range.mp hk))]

theorem storeBytes_write {st : Store CString UInt8} (hok : Ok limits st) (slot : Option Nat)
    (buffer : List UInt8) :
    storeBytes (st.write limits slot buffer).2 ≤ storeBytes st + buffer.length := by
  unfold Store.write
  rcases hget : st.get slot with _ | ⟨i, h⟩
  · exact Nat.le_add_right _ _
  · obtain ⟨_, hi⟩ := (get_eq_some st).mp hget
    have hpos := hok.position_le hi
    have hlen := overwrite_length (st.bytes h.file) (buffer.take (limits.maxSize - st.position h)) _
      hpos
    have htake := List.length_take_le' (limits.maxSize - st.position h) buffer
    have hsum := sum_update_add (hok.file i h hi) st.bytes (overwrite (st.bytes h.file)
      (st.position h) (buffer.take (limits.maxSize - st.position h))) List.length
    unfold storeBytes
    simp only [Store.setHandle, Store.setBytes]
    omega

theorem storeBytes_openFile (st : Store CString UInt8) (name : Option CString) {flags : BitVec 32}
    (hflag : hasFlag flags TFS_O_TRUNC = false) :
    storeBytes (st.openFile limits name (modeOf flags)).2 = storeBytes st := by
  have htrunc : ∀ k, st.truncated (modeOf flags) k = st := by
    intro k
    unfold Store.truncated modeOf
    rw [if_neg (by simp [hflag])]
  unfold Store.openFile
  cases name with
  | none => rfl
  | some name =>
    simp only [htrunc]
    split
    · exact storeBytes_addHandle ..
    · split
      · rw [storeBytes_addHandle, storeBytes_created]
      · rfl

/-- A modest call gives the files no more bytes than it has to write. -/
theorem storeBytes_exec {st : Store CString UInt8} (hok : Ok limits st) {op : Op} (hm : Modest op) :
    storeBytes (storeExec st op).2 ≤ storeBytes st + bytesGiven op := by
  cases op with
  | tfsOpen name flags => exact (storeBytes_openFile st _ hm.2).le
  | tfsClose fhandle =>
    simp only [storeExec, seenReply, Store.close]
    split <;> exact le_rfl
  | tfsRead fhandle len =>
    simp only [storeExec, seenReply, Store.read]
    split
    · exact le_rfl
    · split <;> exact le_rfl
  | tfsWrite fhandle buffer => exact storeBytes_write hok _ buffer
  | tfsCopyToExternalFs source_path destOpens => exact hm.elim

theorem careful_of_modest {st : Store CString UInt8} (hok : Ok limits st) {op : Op}
    (hm : Modest op) (hbytes : storeBytes st + bytesGiven op ≤ BYTES_FIT) : Careful st op := by
  cases op with
  | tfsOpen name flags =>
    refine ⟨hm.1, ?_⟩
    rcases nameOf name with _ | n
    · trivial
    · intro htrunc
      exact absurd (hm.2.symm.trans htrunc) Bool.false_ne_true
  | tfsClose fhandle => exact trivial
  | tfsRead fhandle len => exact trivial
  | tfsWrite fhandle buffer =>
    have hlen : buffer.length ≤ BYTES_FIT := (Nat.le_add_left _ _).trans hbytes
    refine ⟨?_, fitsDisk_of_bytes (hok.write _ buffer) ((storeBytes_write hok _ buffer).trans hbytes)⟩
    simp only [BYTES_FIT, DATA_BLOCKS, MAX_DIR_ENTRIES, BLOCK_SIZE] at hlen
    omega
  | tfsCopyToExternalFs source_path destOpens => exact hm.elim

/-! ## The order of the calls -/

/-- A call on the store, with the answer that the caller sees. -/
def storeAnswer (st : Store CString UInt8) (op : Op) : Answer × Store CString UInt8 :=
  (⟨(storeExec st op).1.ret, (storeExec st op).1.bytes⟩, (storeExec st op).2)

theorem Shows.answer {s : State} {st : Store CString UInt8} (h : Shows s st) {op : Op}
    (hc : Careful st op) :
    (parte1.exec s op).1 = (storeAnswer st op).1 ∧
      Shows (parte1.exec s op).2 (storeAnswer st op).2 := by
  obtain ⟨r, s', hr, rfl, hshows⟩ := h.exec hc
  unfold seenExec at hr
  split at hr
  · cases hr
  · obtain ⟨hseen, rfl⟩ := Prod.mk.inj (Option.some.inj hr)
    refine ⟨?_, hshows⟩
    unfold storeAnswer
    rw [← hseen]

/-- All of the calls are modest, and together they do not have too much to write. -/
def AllModest (ops : List Op) : Prop := (∀ op ∈ ops, Modest op) ∧ (ops.map bytesGiven).sum ≤ BYTES_FIT

instance (ops : List Op) : Decidable (AllModest ops) := inferInstanceAs (Decidable (_ ∧ _))

/-- Modest calls are careful in any order. -/
theorem meets_of_modest {st : Store CString UInt8} (hok : Ok limits st) {ops : List Op}
    (hm : ∀ op ∈ ops, Modest op)
    (hbytes : storeBytes st + (ops.map bytesGiven).sum ≤ BYTES_FIT) :
    runs.Meets storeAnswer Careful st ops := by
  induction ops generalizing st with
  | nil => trivial
  | cons op ops ih =>
    rw [List.map_cons, List.sum_cons] at hbytes
    have hop := hm op List.mem_cons_self
    have hc := careful_of_modest hok hop (by omega)
    have hnext := storeBytes_exec hok hop
    refine ⟨hc, ih (storeExec_ok hok hc) (fun o ho => hm o (List.mem_cons_of_mem _ ho)) ?_⟩
    simp only [storeAnswer]
    omega

/-- The calls of all threads have an order in which they answer like the store. When all of them
have ended, the disk holds the files of the store, and the table its handles. -/
def SeesStore (s : Threads) : Prop :=
  ∃ order st, Linearization storeAnswer file_store.empty s.history.calls order st ∧
    ((∀ x ∈ s.history.calls, x.finish.isSome = true) → Shows s.fs st)

theorem Sim.seesStore {fs : State} (hfs : Initial fs) {s : Threads} {order : List (Nat × Answer)}
    {b a : State} (h : Sim fs s order b a) (hm : AllModest (s.history.calls.map Call.op)) :
    SeesStore s := by
  have hsum := sum_opsOf_le bytesGiven h.lin.nodup fun _ hc => h.lin.lt_of_mem hc
  have hops : runs.Meets storeAnswer Careful file_store.empty (opsOf s.history.calls order) := by
    apply meets_of_modest (empty_ok limits)
    · exact fun op hop => hm.1 op (mem_of_mem_opsOf hop)
    · have hnone : storeBytes (file_store.empty : Store CString UInt8) = 0 := rfl
      rw [hnone, Nat.zero_add]
      exact hsum.trans hm.2
  obtain ⟨st, hlin, hshows⟩ := h.lin.toLinearization.related
    (fun _ _ _ hR hc => hR.answer hc) hfs.shows hops
  refine ⟨order, st, hlin, fun hall => ?_⟩
  rw [← h.ended hall]
  exact hshows

/-! ## Runs -/

/-- A thread calls nothing but a modest operation, and not too much is written in all calls. -/
def ModestStep (s : Threads) : ThreadStep → Prop
  | .call _ op => AllModest (s.history.calls.map Call.op ++ [op])
  | .go _ => True

instance (s : Threads) : (a : ThreadStep) → Decidable (ModestStep s a)
  | .call _ _ => inferInstanceAs (Decidable (AllModest _))
  | .go _ => inferInstanceAs (Decidable True)

theorem threadStep_modest {s s' : Threads} {a : ThreadStep} (hm : ModestStep s a)
    (h : AllModest (s.history.calls.map Call.op)) (he : threadStep s a = some s') :
    AllModest (s'.history.calls.map Call.op) := by
  cases a with
  | call t op =>
    simp only [threadStep] at he
    split at he
    · cases he
      rw [History.ops_call]
      exact hm
    · cases he
  | go t =>
    have hsame : ∀ p, ((s.go t p).history.calls.map Call.op) = s.history.calls.map Call.op := by
      intro p
      have hsee : ∀ u : Threads, u.history = s.history → ∀ r, (u.after t r).history.calls.map Call.op =
          s.history.calls.map Call.op := by
        rintro u hu ⟨p | b, fs⟩
        · exact congrArg (fun h => h.calls.map Call.op) hu
        · simp only [Threads.after, History.ops_ret, hu]
      unfold Threads.go
      split
      · exact hsee s.see rfl _
      · exact hsee s rfl _
    simp only [threadStep] at he
    split at he
    · cases he
    · cases he
      rw [hsame]
      exact h

/-- In every state of every run, by any number of threads, in which no step is careless and the
calls are modest, the calls answer like the store of files in some order of theirs. -/
theorem threads_see_a_file_store {fs : State} (hfs : Initial fs) {as : List ThreadStep}
    (hm : steps.Meets threadStep (fun s a => ¬ Careless s a ∧ ModestStep s a) (atRest fs) as) :
    steps.Always threadStep SeesStore (atRest fs) as := by
  have hall : steps.Always threadStep (fun s => (∃ order b a, Sim fs s order b a) ∧
      AllModest (s.history.calls.map Call.op)) (atRest fs) as := by
    refine steps.always_of_meets (fun s a s' h hok he => ?_)
      ⟨⟨_, _, _, atRest_sim hfs.inv⟩, fun _ hop => absurd hop List.not_mem_nil, Nat.zero_le _⟩ hm
    obtain ⟨⟨_, _, _, hsim⟩, hmodest⟩ := h
    exact ⟨hsim.step hok.1 he, threadStep_modest hok.2 hmodest he⟩
  exact hall.mono fun _ ⟨⟨_, _, _, hsim⟩, hmodest⟩ => hsim.seesStore hfs hmodest

/-- The open, the write and the read that go on at the same time succeed. -/
theorem the_overlap_sees_the_store :
    steps.Always threadStep SeesStore (atRest (tfsInit zeroed).2) overlap :=
  threads_see_a_file_store ⟨zeroed, rfl⟩ (meets_of_below (n := 3) (by decide +kernel))

end tecnicofs.parte1
