-- The counter of open files, in which the sign says that a shutdown was asked
-- for: `openFiles` before it, and -(openFiles + 1) after it.
import TecnicoFS.Common.Counting
import TecnicoFS.Parte2.Handles

namespace tecnicofs.parte2

/-! ## The number of open files -/

/-- The number of entries that are taken. -/
def takenCount (entries : Nat → AllocationState) : Nat :=
  ((Finset.range MAX_OPEN_FILES).filter fun i => entries i = .TAKEN).card

theorem takenCount_release {entries : Nat → AllocationState} {i : Nat} (hi : i < MAX_OPEN_FILES)
    (ht : entries i = .TAKEN) :
    takenCount (Function.update entries i .FREE) + 1 = takenCount entries := by
  apply card_filter_update hi ht
  simp

theorem takenCount_take {entries : Nat → AllocationState} {i : Nat} (hi : i < MAX_OPEN_FILES)
    (hfree : entries i = .FREE) :
    takenCount (Function.update entries i .TAKEN) = takenCount entries + 1 := by
  have hback := takenCount_release hi (Function.update_self i .TAKEN entries)
  rw [Function.update_idem, ← hfree, Function.update_eq_self] at hback
  exact hback.symm

/-! ## What a section does to the counter -/

/-- A section leaves the table of open files and the counter as they are, or takes a slot, or
releases one, or asks for the shutdown. -/
theorem exec_counter {s : State} {op : Op} {r : Answer × State} (hr : exec s op = some r) :
    (op ≠ .tfsDestroyAfterAllClosed ∧ r.2.openFiles = s.openFiles ∧
      r.2.free_open_file_entries = s.free_open_file_entries) ∨
    (op ≠ .tfsDestroyAfterAllClosed ∧ 0 ≤ s.openFiles ∧ r.2.openFiles = s.openFiles + 1 ∧
      ∃ i < MAX_OPEN_FILES, s.free_open_file_entries i = .FREE ∧
        r.2.free_open_file_entries = Function.update s.free_open_file_entries i .TAKEN) ∨
    (op ≠ .tfsDestroyAfterAllClosed ∧
      r.2.openFiles = (s.openFiles + if 0 < s.openFiles then -1 else 1) ∧
      ∃ i < MAX_OPEN_FILES, s.free_open_file_entries i = .TAKEN ∧
        r.2.free_open_file_entries = Function.update s.free_open_file_entries i .FREE) ∨
    (op = .tfsDestroyAfterAllClosed ∧ r.2.openFiles = (s.openFiles + 1) * -1 ∧
      r.2.free_open_file_entries = s.free_open_file_entries) := by
  cases op with
  | tfsLookup name =>
    cases hr
    exact Or.inl ⟨nofun, rfl, rfl⟩
  | tfsOpen name flags =>
    rcases tfsOpen_cases hr with ⟨_, rfl⟩ | ⟨_, d, rfl⟩ | ⟨h0, d, i, hi, _, _, hfree, _, rfl⟩
    · exact Or.inl ⟨nofun, rfl, rfl⟩
    · exact Or.inl ⟨nofun, rfl, rfl⟩
    · exact Or.inr (Or.inl ⟨nofun, h0, rfl, i, hi, hfree, rfl⟩)
  | tfsClose fhandle =>
    cases hr
    rcases tfsClose_cases s fhandle with ⟨_, he⟩ | ⟨i, hi, _, ht, he⟩ <;> rw [he]
    · exact Or.inl ⟨nofun, rfl, rfl⟩
    · exact Or.inr (Or.inr (Or.inl ⟨nofun, rfl, i, hi, ht, rfl⟩))
  | tfsRead fhandle len =>
    obtain ⟨_, _, i, o, rfl⟩ := tfsRead_cases hr
    exact Or.inl ⟨nofun, rfl, rfl⟩
  | tfsWrite fhandle buffer =>
    obtain ⟨_, d, i, o, rfl⟩ := tfsWrite_cases hr
    exact Or.inl ⟨nofun, rfl, rfl⟩
  | tfsDestroyAfterAllClosed =>
    cases hr
    exact Or.inr (Or.inr (Or.inr ⟨rfl, rfl, rfl⟩))

/-! ## The counter along a run -/

/-- A run of sections that remembers whether a shutdown was asked for. -/
structure Watched where
  state : State
  requested : Prop

def Watched.taken (w : Watched) : Nat := takenCount w.state.free_open_file_entries

def watch (w : Watched) (op : Op) : Option Watched :=
  (next w.state op).map fun s => ⟨s, w.requested ∨ op = .tfsDestroyAfterAllClosed⟩

/-- The number of open files before a shutdown was asked for, and -(number + 1) after it. -/
structure Counts (w : Watched) : Prop where
  before : ¬ w.requested → w.state.openFiles = w.taken
  after : w.requested → w.state.openFiles = -((w.taken : Int) + 1)

/-- What the counter is for. -/
structure CounterLaws (w : Watched) : Prop where
  counts : Counts w
  no_open : w.requested → ∀ name flags r, tfsOpen w.state name flags = some r → r.1.ret = -1
  last_close : w.requested → ∀ fhandle r, tfsClose w.state fhandle = r → r.1.ret = 0 →
    takenCount r.2.free_open_file_entries = 0 → r.1.signals = true

theorem Counts.laws {w : Watched} (h : Counts w) : CounterLaws w where
  counts := h
  no_open := by
    intro hreq name flags r hr
    have hneg := h.after hreq
    rcases tfsOpen_cases hr with ⟨_, rfl⟩ | ⟨h0, _⟩ | ⟨h0, _⟩
    · rfl
    · omega
    · omega
  last_close := by
    intro hreq fhandle r hr hret hzero
    have hneg := h.after hreq
    rcases tfsClose_cases w.state fhandle with ⟨_, he⟩ | ⟨i, hi, _, ht, he⟩ <;>
      rw [he] at hr <;> subst hr
    · exact absurd hret.symm zero_ne_neg_one
    · have hcount := takenCount_release hi ht
      simp only [withoutHandle] at hzero
      simp only [decide_eq_true_eq]
      unfold Watched.taken at hneg
      rw [if_neg (by omega)]
      omega

theorem Counts.start {s : State} (h : Initial s) : Counts ⟨s, False⟩ where
  before := by
    intro _
    obtain ⟨raw, _, rfl⟩ := h
    simp [Watched.taken, takenCount, tfsInit, stateInit]
  after := False.elim

/-- Every section but a second shutdown keeps the encoding. -/
theorem Counts.step {w w' : Watched} {op : Op} (h : Counts w)
    (hok : w.requested → op ≠ .tfsDestroyAfterAllClosed) (he : watch w op = some w') :
    Counts w' := by
  obtain ⟨s', hs', rfl⟩ := Option.map_eq_some_iff.mp he
  obtain ⟨r, hr, rfl⟩ := Option.map_eq_some_iff.mp hs'
  obtain ⟨hb, ha⟩ := h
  unfold Watched.taken at hb ha
  rcases exec_counter hr with ⟨hop, ho, hf⟩ | ⟨hop, h0, ho, i, hi, hfree, hf⟩ |
    ⟨hop, ho, i, hi, ht, hf⟩ | ⟨hop, ho, hf⟩
  · refine ⟨fun hreq => ?_, fun hreq => ?_⟩ <;> simp only [Watched.taken, ho, hf]
    · exact hb fun hr => hreq (Or.inl hr)
    · exact ha (hreq.resolve_right hop)
  · have hcount := takenCount_take hi hfree
    refine ⟨fun hreq => ?_, fun hreq => ?_⟩ <;> simp only [Watched.taken, ho, hf, hcount]
    · rw [hb fun hr => hreq (Or.inl hr)]
      rfl
    · have := ha (hreq.resolve_right hop)
      omega
  · have hcount := takenCount_release hi ht
    refine ⟨fun hreq => ?_, fun hreq => ?_⟩ <;> simp only [Watched.taken, ho, hf]
    · have := hb fun hr => hreq (Or.inl hr)
      rw [if_pos (by omega)]
      omega
    · have := ha (hreq.resolve_right hop)
      rw [if_neg (by omega)]
      omega
  · refine ⟨fun hreq => (hreq (Or.inr hop)).elim, fun _ => ?_⟩
    simp only [Watched.taken, ho, hf]
    have := hb fun hr => hok hr hop
    omega

/-- The second shutdown turns the sign back. -/
theorem Counts.second_shutdown {w w' : Watched} (h : Counts w) (hreq : w.requested)
    (he : watch w .tfsDestroyAfterAllClosed = some w') : ¬ Counts w' := by
  cases he
  intro h'
  have h1 := h.after hreq
  have h2 := h'.after (Or.inl hreq)
  simp only [Watched.taken, tfsDestroyAfterAllClosed] at h1 h2
  omega

/-- The counter keeps what it encodes, no file is opened after a shutdown was asked for, and the
last close signals, all along a run, exactly when no second shutdown is asked for in it. -/
theorem the_counter_survives_one_shutdown {s : State} (hs : Initial s) (ops : List Op) :
    steps.Always watch CounterLaws ⟨s, False⟩ ops ↔
      steps.Meets watch (fun w op => w.requested → op ≠ .tfsDestroyAfterAllClosed)
        ⟨s, False⟩ ops := by
  refine steps.always_iff_meets (I := Counts) (fun _ h => h.laws)
    (fun _ _ _ h _ hok he => h.step hok he) (fun w op w' h _ hbad he hlaws => ?_)
    (Counts.start hs) (steps.meets_true _ _)
  have hsecond : w.requested ∧ op = .tfsDestroyAfterAllClosed := by
    by_contra hc
    exact hbad fun hreq hop => hc ⟨hreq, hop⟩
  obtain ⟨hreq, rfl⟩ := hsecond
  exact h.second_shutdown hreq he hlaws.counts

/-- One file open and one shutdown: the run meets the condition, and the counter says -2. -/
theorem one_shutdown_is_counted :
    Initial firstState ∧ steps.Always watch CounterLaws ⟨firstState, False⟩
      [.tfsOpen (some pathA) TFS_O_CREAT, .tfsDestroyAfterAllClosed] :=
  ⟨firstState_initial, (the_counter_survives_one_shutdown firstState_initial _).mpr (by
    intro w hw
    refine ⟨fun _ => nofun, fun w' hw' => ⟨fun hreq => ?_, trivial⟩⟩
    obtain ⟨_, _, rfl⟩ := Option.map_eq_some_iff.mp hw
    exact nomatch hreq.resolve_left id)⟩

/-- After a second shutdown the counter is the number of open files again: a file can be opened,
and the close of the only open file does not signal. -/
theorem a_second_shutdown_turns_the_sign :
    (steps.after next firstState [.tfsOpen (some pathA) TFS_O_CREAT, .tfsDestroyAfterAllClosed,
        .tfsDestroyAfterAllClosed]).map (fun s => (s.openFiles, takenCount s.free_open_file_entries,
          (tfsOpen s (some pathB) TFS_O_CREAT).map fun r => r.1.ret,
          (tfsClose s 0).1.ret, (tfsClose s 0).1.signals)) =
      some (1, 1, some 1, 0, false) := by
  decide +kernel

end tecnicofs.parte2
