-- Each step of a close, a write or a read that is not careless keeps the
-- simulation. With the steps of an open, so does every step of a thread.
import TecnicoFS.Parte1.OpenSteps

open linearizability

namespace tecnicofs.parte1

section
variable {s₀ : State} {s : Threads} {order : List (Nat × Answer)} {b a : State}
  (h : Sim s₀ s order b a) {t : Nat}
include h

/-! ## The slots for the threads and for the calls -/

theorem Sim.room {i : Nat} (hlen : s.waiting.length ≤ freeBelow s.fs i) :
    s.entries.length ≤ freeBelow b i := by
  unfold Threads.entries freeBelow
  rw [List.length_map, h.filled.free]
  exact hlen

/-- A slot is as free for the calls as it is for the threads, if the opens that wait find room
below it. -/
theorem Sim.slot {i : Nat} (hi : i < MAX_OPEN_FILES)
    (hok : s.fs.free_open_file_entries i = .FREE → s.waiting.length ≤ freeBelow s.fs i) :
    a.free_open_file_entries i = s.fs.free_open_file_entries i := by
  rw [h.state]
  cases hs : s.fs.free_open_file_entries i with
  | FREE => exact addEntries_free _ hi (by rw [h.filled.free, hs]) (h.room (hok hs))
  | TAKEN => exact (addEntries_taken _ (by rw [h.filled.free, hs])).1

theorem Sim.getOpenFileEntry {fhandle : Int}
    (hok : ∀ i < MAX_OPEN_FILES, fhandle = (i : Nat) → s.fs.free_open_file_entries i = .FREE →
      s.waiting.length ≤ freeBelow s.fs i) :
    getOpenFileEntry a fhandle = getOpenFileEntry s.fs fhandle := by
  apply Option.ext
  intro i
  rw [getOpenFileEntry_eq_some, getOpenFileEntry_eq_some]
  refine and_congr_right fun heq => and_congr_right fun hi => ?_
  rw [h.slot hi (hok i hi heq)]

/-- What a call finds in a taken slot that nobody fills. -/
theorem Sim.entry {i : Nat} (ht : Taken b i) (hno : ∀ u, (s.place u).fills ≠ some i) :
    parte1.getOpenFileEntry a i = some i ∧ a.open_file_table i = s.fs.open_file_table i ∧
      b.open_file_table i = s.fs.open_file_table i := by
  obtain ⟨h1, h2⟩ := addEntries_taken s.entries ht.2
  rw [← h.state] at h1 h2
  have htable := h.filled.table i hno
  exact ⟨getOpenFileEntry_eq_some.mpr ⟨rfl, ht.1, h1⟩, h2.trans htable, htable⟩

/-! ## Close -/

theorem Sim.close {fhandle : Int} (hp : s.place t = .close fhandle)
    (hok : ∀ i < MAX_OPEN_FILES, fhandle = (i : Nat) → s.waiting.length ≤ freeBelow s.fs i ∧
      ∀ u, (s.place u).uses ≠ some i ∧ (s.place u).fills ≠ some i) :
    ∃ order' b' a', Sim s₀ (s.after t (advance s.fs (.close fhandle))) order' b' a' := by
  obtain ⟨hplain, x, hx, hat⟩ := h.at_plain hp ⟨by simp, rfl, rfl⟩
  obtain ⟨ht, hun⟩ := h.queue.not_waiting hplain.waits
  have hop : x.op = .tfsClose fhandle := hat
  simp only [advance]
  by_cases hno : ∀ i < MAX_OPEN_FILES, fhandle ≠ (i : Nat)
  · rw [tfsClose_invalid s.fs hno]
    apply h.finish_same hplain hx
    simp only [hop, exec, tfsClose_invalid a hno]
  push Not at hno
  obtain ⟨i, hi, rfl⟩ := hno
  obtain ⟨hlen, hothers⟩ := hok i hi rfl
  have hslot := h.slot hi fun _ => hlen
  rw [tfsClose_nat s.fs hi]
  by_cases htaken : s.fs.free_open_file_entries i = .TAKEN
  · rw [if_pos htaken]
    have hrun := addEntries_release s.entries hi (h.room hlen)
    rw [← h.state] at hrun
    refine ⟨_, release b i, _, h.finish hx hplain.busy ht hplain.fills (release s.fs i) (release b i)
      ⟨0, []⟩ ?_ (by rw [hrun]) ?_ h.filled.table (fun u _ => ?_)
      (fun hor => h.seen (hor.resolve_right hun)) fun _ _ _ => ⟨rfl, rfl⟩⟩
    · simp only [hop, exec, tfsClose_nat a hi, hslot, htaken, if_true, hrun]
    · simp only [release, h.filled.free]
    · refine ⟨fun j hj htj => ⟨htj.1, ?_⟩, fun _ _ _ => ⟨rfl, rfl⟩, fun _ _ _ => rfl⟩
      have hji : j ≠ i := by
        rintro rfl
        exact hj.elim (hothers u).1 (hothers u).2
      simpa only [release, Function.update_of_ne hji] using htj.2
  · rw [if_neg htaken]
    apply h.finish_same hplain hx
    simp only [hop, exec, tfsClose_nat a hi, hslot, htaken, if_false]

/-! ## Write and read: the check and the inode -/

theorem Sim.writeCheck {fhandle : Int} {buffer : List UInt8}
    (hp : s.place t = .writeCheck fhandle buffer)
    (hok : ∀ i < MAX_OPEN_FILES, fhandle = (i : Nat) → s.fs.free_open_file_entries i = .FREE →
      s.waiting.length ≤ freeBelow s.fs i) :
    ∃ order' b' a', Sim s₀ (s.after t (advance s.fs (.writeCheck fhandle buffer))) order' b' a' := by
  obtain ⟨hplain, x, hx, hat⟩ := h.at_plain hp ⟨by simp, rfl, rfl⟩
  have hop : x.op = .tfsWrite fhandle buffer := hat
  have hget := h.getOpenFileEntry hok
  rcases hs : parte1.getOpenFileEntry s.fs fhandle with _ | i <;> simp only [advance, hs]
  · apply h.finish_same hplain hx
    simp only [hop, exec, tfsWrite, hget, hs]
  · obtain ⟨rfl, hi, htaken⟩ := getOpenFileEntry_eq_some.mp hs
    rw [← h.filled.free] at htaken
    apply h.goOn_plain hplain ⟨by simp, rfl, rfl⟩ (fun i hi => by cases hi)
    intro op hop
    rw [hp] at hop
    exact ⟨hop, hi, htaken⟩

theorem Sim.readCheck {fhandle : Int} {len : Nat} (hp : s.place t = .readCheck fhandle len)
    (hok : ∀ i < MAX_OPEN_FILES, fhandle = (i : Nat) → s.fs.free_open_file_entries i = .FREE →
      s.waiting.length ≤ freeBelow s.fs i) :
    ∃ order' b' a', Sim s₀ (s.after t (advance s.fs (.readCheck fhandle len))) order' b' a' := by
  obtain ⟨hplain, x, hx, hat⟩ := h.at_plain hp ⟨by simp, rfl, rfl⟩
  have hop : x.op = .tfsRead fhandle len := hat
  have hget := h.getOpenFileEntry hok
  rcases hs : parte1.getOpenFileEntry s.fs fhandle with _ | i <;> simp only [advance, hs]
  · apply h.finish_same hplain hx
    simp only [hop, exec, tfsRead, hget, hs]
  · obtain ⟨rfl, hi, htaken⟩ := getOpenFileEntry_eq_some.mp hs
    rw [← h.filled.free] at htaken
    apply h.goOn_plain hplain ⟨by simp, rfl, rfl⟩ (fun i hi => by cases hi)
    intro op hop
    rw [hp] at hop
    exact ⟨hop, hi, htaken⟩

theorem Sim.writeInumber {i : Nat} {buffer : List UInt8} (hp : s.place t = .writeInumber i buffer)
    (hok : ∀ u, (s.place u).fills ≠ some i) :
    ∃ order' b' a', Sim s₀ (s.after t (advance s.fs (.writeInumber i buffer))) order' b' a' := by
  obtain ⟨hplain, x, hx, hat⟩ := h.at_plain hp ⟨by simp, rfl, rfl⟩
  obtain ⟨hop, htaken⟩ := hat
  obtain ⟨hget, ha, hb⟩ := h.entry htaken hok
  rcases hi : inodeGet (s.fs.open_file_table i).of_inumber with _ | inode <;> simp only [advance, hi]
  · apply h.finish_same hplain hx
    simp only [hop, exec, tfsWrite, hget, ha, hi]
  · apply h.goOn_plain hplain ⟨by simp, rfl, rfl⟩
    · intro j hj
      cases hj
      exact hok
    · intro op hat
      rw [hp] at hat
      exact ⟨hat.1, htaken, by rw [hb, hi]⟩

theorem Sim.readInumber {i len : Nat} (hp : s.place t = .readInumber i len)
    (hok : ∀ u, (s.place u).fills ≠ some i) :
    ∃ order' b' a', Sim s₀ (s.after t (advance s.fs (.readInumber i len))) order' b' a' := by
  obtain ⟨hplain, x, hx, hat⟩ := h.at_plain hp ⟨by simp, rfl, rfl⟩
  obtain ⟨hop, htaken⟩ := hat
  obtain ⟨hget, ha, hb⟩ := h.entry htaken hok
  rcases hi : inodeGet (s.fs.open_file_table i).of_inumber with _ | inode <;> simp only [advance, hi]
  · apply h.finish_same hplain hx
    simp only [hop, exec, tfsRead, hget, ha, hi]
  · apply h.goOn_plain hplain ⟨by simp, rfl, rfl⟩
    · intro j hj
      cases hj
      exact hok
    · intro op hat
      rw [hp] at hat
      exact ⟨hat.1, htaken, by rw [hb, hi]⟩

theorem Sim.readIsAppending {i inode len : Nat} (hp : s.place t = .readIsAppending i inode len) :
    ∃ order' b' a', Sim s₀ (s.after t (advance s.fs (.readIsAppending i inode len)))
      order' b' a' := by
  obtain ⟨hplain, x, hx, hat⟩ := h.at_plain hp ⟨by simp, rfl, rfl⟩
  obtain ⟨hop, htaken, hi⟩ := hat
  have hno : ∀ u, (s.place u).fills ≠ some i :=
    fun u => h.filled.settled t u i (by rw [hp]; rfl)
  obtain ⟨hget, ha, hb⟩ := h.entry htaken hno
  cases hm : (s.fs.open_file_table i).isAppending <;> simp only [advance, hm, Bool.false_eq_true, if_false, if_true]
  · apply h.goOn_plain hplain ⟨by simp, rfl, rfl⟩
    · intro j hj
      cases hj
      exact hno
    · intro op hat
      rw [hp] at hat
      exact ⟨hat.1, htaken, hi, by rw [hb, hm]⟩
  · apply h.finish_same hplain hx
    rw [hb] at hi
    simp only [hop, exec, tfsRead, hget, ha, hi, hm, if_true]

/-! ## Write and read: the section under both locks -/

/-- A write or a read ends. Nobody fills its slot. -/
theorem Sim.finish_slot (hplain : (s.place t).Plain) {x : Call Op Answer}
    (hx : s.history.calls[s.callOf t]? = some x) (hun : s.unseen = none) {i : Nat}
    (ht : Taken b i) (hno : ∀ u, (s.place u).fills ≠ some i) {r : Answer} {d : Disk}
    {e : OpenFileEntry}
    (he : e.of_inumber = (b.open_file_table i).of_inumber ∧
      e.isAppending = (b.open_file_table i).isAppending)
    (hexec : exec a x.op = (r, fillEntry { a with disk := d } i e)) :
    ∃ order' b' a', Sim s₀ (s.after t (.ret r, fillEntry { s.fs with disk := d } i e))
      order' b' a' := by
  obtain ⟨hwait, _⟩ := h.queue.not_waiting hplain.waits
  have hrun : runs.run addEntry (fillEntry { b with disk := d } i e) s.entries =
      ((runs.run addEntry b s.entries).1, fillEntry { a with disk := d } i e) := by
    rw [addEntries_fillEntry (s := { b with disk := d }) _ ht.2, addEntries_setDisk, ← h.state]
  refine ⟨_, fillEntry { b with disk := d } i e, _, h.finish hx hplain.busy hwait hplain.fills
    (fillEntry { s.fs with disk := d } i e) (fillEntry { b with disk := d } i e) r
    (by rw [hexec, hrun]) (by rw [hrun]) h.filled.free (fun j hj => ?_) (fun u _ => ?_)
    (fun _ => rfl) fun u _ hu => ?_⟩
  · by_cases hji : j = i
    · subst hji
      simp only [fillEntry, Function.update_self]
    · simp only [fillEntry, Function.update_of_ne hji]
      exact h.filled.table j hj
  · refine ⟨fun _ _ hj => hj, fun j _ _ => ?_, fun j hj _ => ?_⟩
    · by_cases hji : j = i
      · subst hji
        simpa only [fillEntry, Function.update_self] using he
      · simp only [fillEntry, Function.update_of_ne hji, and_self]
    · have hji : j ≠ i := by
        rintro rfl
        exact hno u hj
      simp only [fillEntry, Function.update_of_ne hji]
  · rw [hun] at hu
    cases hu

theorem Sim.writeLocked {i inode : Nat} {buffer : List UInt8}
    (hp : s.place t = .writeLocked i inode buffer) (hun : s.unseen = none) :
    ∃ order' b' a', Sim s₀ (s.after t (advance s.fs (.writeLocked i inode buffer)))
      order' b' a' := by
  obtain ⟨hplain, x, hx, hat⟩ := h.at_plain hp ⟨by simp, rfl, rfl⟩
  have hdisk := h.disk_eq.trans (h.seen hun)
  obtain ⟨hop, htaken, hi⟩ := hat
  have hno : ∀ u, (s.place u).fills ≠ some i :=
    fun u => h.filled.settled t u i (by rw [hp]; rfl)
  obtain ⟨hget, ha, hb⟩ := h.entry htaken hno
  apply h.finish_slot hplain hx hun htaken hno
  · rw [hb]
    exact writeCritical_mode ..
  · rw [hb] at hi
    simp only [hop, exec, tfsWrite, hget, ha, hi, hdisk]

theorem Sim.readLocked {i inode len : Nat} (hp : s.place t = .readLocked i inode len)
    (hun : s.unseen = none) :
    ∃ order' b' a', Sim s₀ (s.after t (advance s.fs (.readLocked i inode len))) order' b' a' := by
  obtain ⟨hplain, x, hx, hat⟩ := h.at_plain hp ⟨by simp, rfl, rfl⟩
  have hdisk := h.disk_eq.trans (h.seen hun)
  obtain ⟨hop, htaken, hi, hm⟩ := hat
  have hno : ∀ u, (s.place u).fills ≠ some i :=
    fun u => h.filled.settled t u i (by rw [hp]; rfl)
  obtain ⟨hget, ha, hb⟩ := h.entry htaken hno
  apply h.finish_slot (d := s.fs.disk) hplain hx hun htaken hno
  · rw [hb]
    exact readCritical_mode ..
  · rw [hb] at hi hm
    simp only [hop, exec, tfsRead, hget, ha, hi, hm, Bool.false_eq_true, if_false, ← hdisk]

end

end tecnicofs.parte1
