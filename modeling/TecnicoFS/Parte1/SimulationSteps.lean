-- The rules of the simulation, one for each kind of step: a step that changes
-- nothing, the end of a call, an effect on the disk, its discovery, a claim of a
-- slot, its filling, and a new call.
import TecnicoFS.Parte1.Simulation
import Mathlib.Data.List.Forall2

open linearizability

namespace tecnicofs.parte1

theorem Place.not_idle_of_waits {p : Place} (h : p.waits = true) : p ≠ .idle := by
  rintro rfl
  cases h

theorem Place.fills_of_waits {p : Place} (h : p.waits = true) : p.fills = none := by
  cases p <;> first | rfl | cases h

theorem Place.reads_of_waits {p : Place} (h : p.waits = true) : p.reads = none := by
  cases p <;> first | rfl | cases h

theorem Place.uses_of_reads {p : Place} {i : Nat} (hp : p.reads = some i) : p.uses = some i := by
  cases p <;> first | exact hp | cases hp

/-- A thread that does not wait leaves the queue as it is. -/
theorem Threads.move_off {s : Threads} {t : Nat} {p : Place} (ht : t ∉ s.waiting)
    (hp : p.waits = false) (fs : State) :
    s.move t p fs =
      { s with
        fs := fs
        place := Function.update s.place t p
        unseen := if s.unseen = some t then none else s.unseen } := by
  simp only [Threads.move, hp, Bool.false_eq_true, false_and, if_false, List.erase_of_not_mem ht]

theorem Queue.move_off {s : Threads} (h : Queue s) {t : Nat} {p : Place} (ht : t ∉ s.waiting)
    (hp : p.waits = false) (fs : State) (history : History Op Answer) :
    Queue { s.move t p fs with history := history } := by
  rw [Threads.move_off ht hp]
  refine ⟨h.nodup, fun u => ?_, fun u hu => ?_⟩
  · by_cases hut : u = t
    · subst hut
      simp only [Function.update_self, hp, ht, false_or, Bool.false_eq_true, false_iff]
      split
      · simp
      · assumption
    · simp only [Function.update_of_ne hut, h.waits u]
      split
      · rename_i hun
        simp [hun, Ne.symm hut]
      · rfl
  · simp only at hu
    split at hu
    · cases hu
    · exact h.once u hu

/-- The queue without the open that has got its slot, or none. -/
theorem Queue.leave {s : Threads} (h : Queue s) {t : Nat} {p : Place} (hmem : t ∈ s.waiting)
    (hp : p.waits = false) (fs : State) :
    Queue { s with
      fs := fs, place := Function.update s.place t p, waiting := s.waiting.erase t } := by
  have hne : s.unseen ≠ some t := fun hun => h.once t hun hmem
  refine ⟨h.nodup.erase t, fun u => ?_, fun u hu hu' => ?_⟩
  · by_cases hut : u = t
    · subst hut
      simp [hp, h.nodup.mem_erase_iff, hne]
    · simp [h.waits u, h.nodup.mem_erase_iff, hut]
  · exact h.once u hu (List.mem_of_mem_erase hu')

/-- Nothing is new to see. -/
theorem Threads.see_none {s : Threads} (hun : s.unseen = none) : s.see = s := by
  unfold Threads.see
  rw [hun]
  simp only [Option.toList_none, List.append_nil]
  rw [← hun]

/-- What nobody has seen of another thread. -/
theorem unseen_other {o : Option Nat} {t u : Nat}
    (hu : (if o = some t then none else o) = some u) : u ≠ t ∧ o = some u := by
  split at hu
  · cases hu
  · rename_i hne
    refine ⟨?_, hu⟩
    rintro rfl
    exact hne hu

section
variable {s₀ : State} {s : Threads} {order : List (Nat × Answer)} {b a : State}
  (h : Sim s₀ s order b a)
include h

theorem Sim.disk_eq : a.disk = b.disk := by
  rw [h.state]
  exact addEntries_disk _ _

/-- The names that are found before a call is put into the order are found after it. -/
theorem Sim.names (op : Op) : NamesStay b.disk (exec a op).2.disk := by
  intro path n hn hl
  rw [← h.disk_eq] at hl
  exact exec_lookup h.inv op hn hl

/-- The call of a busy thread. -/
theorem Sim.known {t : Nat} (ht : s.place t ≠ .idle) : ∃ x,
    s.history.calls[s.callOf t]? = some x ∧ AtPlace b x.op (s.place t) := by
  obtain ⟨x, hx, _, hat⟩ := h.calls.known t ht
  exact ⟨x, hx, hat⟩

/-- Other busy threads are in other calls. -/
theorem Sim.callOf_ne {t u : Nat} (ht : s.place t ≠ .idle) (hu : s.place u ≠ .idle) (hut : u ≠ t) :
    s.callOf u ≠ s.callOf t := fun he => hut (h.calls.distinct u t hu ht he)

/-- The call that is put at the end of the order is not the one of another thread. -/
theorem Sim.old_call {t u : Nat} {r : Answer} (ht : s.place t ≠ .idle) (hu : s.place u ≠ .idle)
    (hut : u ≠ t) (hc : s.callOf u ∈ (order ++ [(s.callOf t, r)]).map Prod.fst) :
    s.callOf u ∈ order.map Prod.fst := by
  rw [List.map_append, List.mem_append] at hc
  refine hc.resolve_right fun hc => h.callOf_ne ht hu hut ?_
  simpa using hc

/-! ## A step that changes nothing -/

theorem Sim.goOn {t : Nat} {p : Place} (hbusy : s.place t ≠ .idle)
    (hf : (s.place t).fills = none) (hpf : p.fills = none) (hw : p.waits = (s.place t).waits)
    (he : p.waits = true → p.entry = (s.place t).entry)
    (hread : ∀ i, p.reads = some i → ∀ u, (s.place u).fills ≠ some i)
    (hat : ∀ op, AtPlace b op (s.place t) → AtPlace b op p) :
    Sim s₀ (s.move t p s.fs) order b a := by
  rw [h.queue.move_same s.fs hw]
  have hentry : ∀ u, (s.place u).waits = true →
      (Function.update s.place t p u).entry = (s.place u).entry := by
    intro u hu
    by_cases hut : u = t
    · subst hut
      rw [Function.update_self]
      exact he (hw.trans hu)
    · rw [Function.update_of_ne hut]
  have hentries : (s.waiting.map fun u => (Function.update s.place t p u).entry) = s.entries :=
    List.map_congr_left fun u hu => hentry u ((h.queue.waits u).mpr (Or.inl hu))
  refine ⟨h.lin, h.inv, h.filled.move hf hpf h.filled.free h.filled.table hread, ?_, ?_, ?_, ?_,
    h.seen, ?_⟩
  · refine ⟨h.queue.nodup, fun u => ?_, h.queue.once⟩
    simp only [waits_update hw]
    exact h.queue.waits u
  · exact h.calls.move hbusy hf hpf hat s.fs s.unseen
  · simp only [Threads.entries, hentries]
    exact h.state
  · simp only [Threads.entries, hentries]
    exact h.answers
  · intro u hu
    obtain ⟨x, hx, ho⟩ := h.unseen u hu
    simp only [hentry u ((h.queue.waits u).mpr (Or.inr hu))]
    exact ⟨x, hx, ho⟩

/-! ## The end of a call -/

/-- The call of thread `t` is put at the end of the order, and ends. -/
theorem Sim.finish {t : Nat} {x : Call Op Answer} (hx : s.history.calls[s.callOf t]? = some x)
    (hbusy : s.place t ≠ .idle) (ht : t ∉ s.waiting) (hf : (s.place t).fills = none)
    (fs' b' : State) (r : Answer)
    (hexec : exec a x.op = (r, (runs.run addEntry b' s.entries).2))
    (hans : (runs.run addEntry b' s.entries).1 = (runs.run addEntry b s.entries).1)
    (hfree : b'.free_open_file_entries = fs'.free_open_file_entries)
    (htable : ∀ i, (∀ u, (s.place u).fills ≠ some i) →
      b'.open_file_table i = fs'.open_file_table i)
    (hslots : ∀ u ≠ t, SlotStays b b' (s.place u))
    (hseen : s.unseen = none ∨ s.unseen = some t → b'.disk = fs'.disk)
    (hunseen : ∀ u ≠ t, s.unseen = some u → b'.disk = b.disk ∧ fs'.disk = s.fs.disk) :
    Sim s₀ { s.move t .idle fs' with history := s.history.ret (s.callOf t) r }
      (order ++ [(s.callOf t, r)]) b' (runs.run addEntry b' s.entries).2 := by
  have hfresh := h.calls.fresh t hbusy ht hf
  have hpoint := h.lin.point hx hfresh
  have hinv := h.inv.exec x.op
  have hnames := h.names x.op
  rw [hexec] at hpoint hinv hnames
  have hmem : (s.callOf t, r) ∈ order ++ [(s.callOf t, r)] :=
    List.mem_append_right _ List.mem_cons_self
  have hqueue := h.queue.move_off (p := .idle) ht rfl fs' (s.history.ret (s.callOf t) r)
  rw [Threads.move_off ht rfl] at hqueue ⊢
  have hentries := entries_update s.place ht .idle
  have hcalls : ∀ u ≠ t, s.place u ≠ .idle → (s.history.ret (s.callOf t) r).calls[s.callOf u]? =
      s.history.calls[s.callOf u]? := by
    exact fun u hut hu => s.history.ret_of_ne (h.callOf_ne hbusy hu hut) r
  refine ⟨hpoint.ret hmem, hinv, h.filled.move hf rfl hfree htable (fun i hi => by cases hi), hqueue,
    ?_, ?_, ?_, ?_, ?_⟩
  · refine h.calls.step t _ _ _ (fun u hu => Function.update_of_ne hu ..) (fun _ _ => rfl)
      (fun _ _ hu => hu) hcalls (fun u hut hu hself => (hself (Function.update_self ..)).elim)
      (fun q hq => List.mem_append_left _ hq) ?_ ?_ hslots ?_ ?_ ?_
    · exact fun u hut hu hc => h.old_call hbusy hu hut hc
    · intro path n hn hl
      have := hnames path n hn hl
      rwa [addEntries_disk] at this
    · exact fun hself => (hself (Function.update_self ..)).elim
    · exact fun hself => (hself (Function.update_self ..)).elim
    · simp only [Function.update_self]
      intro i hi
      cases hi
  · simp only [Threads.entries, hentries]
  · simp only [Threads.entries, hentries]
    simp only [Threads.entries] at hans
    rw [hans]
    exact h.answers.imp fun _ _ hq => List.mem_append_left _ hq
  · intro hun
    apply hseen
    simp only at hun
    split at hun
    · exact Or.inr (by assumption)
    · exact Or.inl hun
  · intro u hu
    obtain ⟨hut, hun⟩ := unseen_other hu
    obtain ⟨y, hy, ho⟩ := h.unseen u hun
    have hub := Place.not_idle_of_waits ((h.queue.waits u).mpr (Or.inr hun))
    obtain ⟨h1, h2⟩ := hunseen u hut hun
    simp only [Function.update_of_ne hut, h1, h2]
    exact ⟨y, (hcalls u hut hub).trans hy, ho⟩

/-! ## The effect of an open -/

/-- An open has its effect, which nobody has seen. It is not in the order yet. -/
theorem Sim.effect {t : Nat} {p : Place} {d : Disk} (hbusy : s.place t ≠ .idle)
    (hun : s.unseen = none) (hw : (s.place t).waits = false) (hf : (s.place t).fills = none)
    (hp : p.waits = true) (hat : ∀ op, AtPlace b op (s.place t) → AtPlace b op p)
    (hopens : ∀ op, AtPlace b op (s.place t) → Opens b.disk op p.entry d) :
    Sim s₀ (s.move t p { s.fs with disk := d }) order b a := by
  obtain ⟨hwait, _⟩ := h.queue.not_waiting hw
  rw [h.queue.move_effect _ hw hp]
  have hentries := entries_update s.place hwait p
  obtain ⟨x, hx, hknown⟩ := h.known hbusy
  have hreads : ∀ i, p.reads = some i → ∀ u, (s.place u).fills ≠ some i := by
    intro i hi
    rw [Place.reads_of_waits hp] at hi
    cases hi
  refine ⟨h.lin, h.inv,
    h.filled.move hf (Place.fills_of_waits hp) h.filled.free h.filled.table hreads, ⟨h.queue.nodup, fun u => ?_, fun u hu => ?_⟩, ?_, ?_, ?_, ?_, ?_⟩
  · by_cases hut : u = t
    · subst hut
      simp [hp]
    · simp only [Function.update_of_ne hut, h.queue.waits u, hun, reduceCtorEq, or_false,
        Option.some.injEq, Ne.symm hut]
  · cases hu
    exact hwait
  · exact h.calls.move hbusy hf (Place.fills_of_waits hp) hat _ _
  · simp only [Threads.entries, hentries]
    exact h.state
  · simp only [Threads.entries, hentries]
    exact h.answers
  · intro hnone
    cases hnone
  · intro u hu
    cases hu
    simp only [Function.update_self]
    exact ⟨x, hx, hopens x.op hknown⟩

/-- Another thread may see the effect: the open is put into the order. -/
theorem Sim.see : ∃ order' b' a', Sim s₀ s.see order' b' a' := by
  rcases hun : s.unseen with _ | t
  · rw [Threads.see_none hun]
    exact ⟨order, b, a, h⟩
  obtain ⟨x, hx, hopens⟩ := h.unseen t hun
  have hwaits : (s.place t).waits = true := (h.queue.waits t).mpr (Or.inr hun)
  have hbusy := Place.not_idle_of_waits hwaits
  have hwait := h.queue.once t hun
  have hf := Place.fills_of_waits hwaits
  have hexec := hopens a h.disk_eq
  have hpoint := h.lin.point hx (h.calls.fresh t hbusy hwait hf)
  have hinv := h.inv.exec x.op
  have hnames := h.names x.op
  rw [hexec] at hpoint hinv hnames
  have hsee : s.see = { s with unseen := none, waiting := s.waiting ++ [t] } := by
    unfold Threads.see
    rw [hun]
    rfl
  rw [hsee]
  have hrun : runs.run addEntry { b with disk := s.fs.disk } (s.entries ++ [(s.place t).entry]) =
      ((runs.run addEntry b s.entries).1 ++
          [(addEntry { a with disk := s.fs.disk } (s.place t).entry).1],
        (addEntry { a with disk := s.fs.disk } (s.place t).entry).2) := by
    rw [runs.run_append, addEntries_setDisk, ← h.state]
    rfl
  have hentries : ({ s with unseen := none, waiting := s.waiting ++ [t] } : Threads).entries =
      s.entries ++ [(s.place t).entry] := by
    simp [Threads.entries]
  refine ⟨_, { b with disk := s.fs.disk }, _, hpoint, hinv, ⟨h.filled.free, h.filled.table,
    h.filled.one, h.filled.settled⟩, ⟨?_, fun u => ?_, fun u hu => by cases hu⟩, ?_, ?_, ?_,
    fun _ => rfl, fun u hu => by cases hu⟩
  · refine List.nodup_append.mpr ⟨h.queue.nodup, List.pairwise_singleton .., fun u hu v hv => ?_⟩
    rw [List.mem_singleton.mp hv]
    rintro rfl
    exact hwait hu
  · rw [h.queue.waits u, hun, List.mem_append, List.mem_singleton]
    simp only [Option.some.injEq, reduceCtorEq, or_false, @eq_comm _ t u]
  · refine h.calls.step t _ _ _ (fun _ _ => rfl) (fun _ _ => rfl)
      (fun _ _ hu => List.mem_append_left _ hu) (fun _ _ _ => rfl)
      (fun u hut hu _ => h.callOf_ne hbusy hu hut) (fun q hq => List.mem_append_left _ hq) ?_ ?_
      (fun u _ => .refl b _ _) ?_ ?_ ?_
    · exact fun u hut hu hc => h.old_call hbusy hu hut hc
    · intro path n hn hl
      have := hnames path n hn hl
      rwa [addEntry_disk] at this
    · intro _
      obtain ⟨y, hy, hyf, hat⟩ := h.calls.known t hbusy
      refine ⟨y, hy, hyf, hat.keep (fun path n hn hl => ?_) (.refl b _ _)⟩
      have := hnames path n hn hl
      rwa [addEntry_disk] at this
    · exact fun _ hn _ => (hn (List.mem_append_right _ List.mem_cons_self)).elim
    · intro i hi
      rw [hf] at hi
      cases hi
  · rw [hentries, hrun]
  · rw [hentries, hrun]
    refine List.rel_append (h.answers.imp fun _ _ hq => List.mem_append_left _ hq) ?_
    exact .cons (List.mem_append_right _ List.mem_cons_self) .nil

/-! ## The slots of the opens -/

/-- The slot that a thread uses or fills is taken. -/
theorem Sim.taken {u i : Nat} (hi : (s.place u).uses = some i ∨ (s.place u).fills = some i) :
    Taken b i := by
  have hbusy : s.place u ≠ .idle := by
    intro hu
    rw [hu] at hi
    rcases hi with hi | hi <;> cases hi
  obtain ⟨x, _, hat⟩ := h.known hbusy
  cases hp : s.place u <;> rw [hp] at hi hat <;> rcases hi with hi | hi <;> cases hi
  · exact hat.1
  · exact hat.2
  · exact hat.2.1
  · exact hat.2
  · exact hat.2.1
  · exact hat.2.1

theorem Sim.not_used {i : Nat} (hfree : s.fs.free_open_file_entries i = .FREE) (u : Nat) :
    (s.place u).uses ≠ some i ∧ (s.place u).fills ≠ some i := by
  have hno : ¬ Taken b i := fun ht => by
    rw [Taken, h.filled.free, hfree] at ht
    cases ht.2
  exact ⟨fun hu => hno (h.taken (Or.inl hu)), fun hu => hno (h.taken (Or.inr hu))⟩

/-- The other threads keep their slots when a free one is taken. -/
theorem Sim.stays_withHandle {i : Nat} (hfree : s.fs.free_open_file_entries i = .FREE)
    (e : OpenFileEntry) (d : Disk) (u : Nat) :
    SlotStays b (withHandle { b with disk := d } i e) (s.place u) := by
  have hne : ∀ j, (s.place u).uses = some j ∨ (s.place u).fills = some j → j ≠ i := by
    rintro j hj rfl
    rcases hj with hj | hj
    · exact (h.not_used hfree u).1 hj
    · exact (h.not_used hfree u).2 hj
  refine ⟨fun j hj ht => ⟨ht.1, ?_⟩, fun j hj _ => ?_, fun j hj _ => ?_⟩
  · simpa only [withHandle, Function.update_of_ne (hne j hj)] using ht.2
  · simp only [withHandle, Function.update_of_ne (hne j (Or.inl hj)), and_self]
  · simp only [withHandle, Function.update_of_ne (hne j (Or.inr hj))]

/-- What a thread knows of the slot that it has claimed. -/
theorem Sim.known_claimed {t i : Nat} (hbusy : s.place t ≠ .idle) (hi : i < MAX_OPEN_FILES)
    (e : OpenFileEntry) (d : Disk) :
    ∃ x, s.history.calls[s.callOf t]? = some x ∧ x.finish = none ∧
      AtPlace (withHandle { b with disk := d } i e) x.op (.openFill i e) := by
  obtain ⟨x, hx, hxf, _⟩ := h.calls.known t hbusy
  refine ⟨x, hx, hxf, ⟨hi, ?_⟩, ?_⟩ <;> simp [withHandle]

/-- The table is full: an open that has no place in the order gets no slot. -/
theorem Sim.claim_fails {t : Nat} {x : Call Op Answer} {e : OpenFileEntry} {d : Disk}
    (hx : s.history.calls[s.callOf t]? = some x) (hbusy : s.place t ≠ .idle)
    (ht : t ∉ s.waiting) (hf : (s.place t).fills = none)
    (hopens : Opens b.disk x.op e d)
    (hd : (s.unseen = some t ∧ d = s.fs.disk) ∨ (s.unseen ≠ some t ∧ d = b.disk))
    (hfull : ∀ i < MAX_OPEN_FILES, s.fs.free_open_file_entries i ≠ .FREE) :
    ∃ order' b' a', Sim s₀
      { s.move t .idle s.fs with history := s.history.ret (s.callOf t) ⟨-1, []⟩ } order' b' a' := by
  rw [← h.filled.free] at hfull
  have hab : a = b := by rw [h.state, addEntries_full s.entries hfull]
  have hrun := addEntries_full s.entries (s := { b with disk := d }) hfull
  have hexec := hopens a h.disk_eq
  rw [hab, addEntry_full (s := { b with disk := d }) hfull e] at hexec
  refine ⟨_, { b with disk := d }, _, h.finish hx hbusy ht hf s.fs { b with disk := d } ⟨-1, []⟩
    (by rw [hab, hexec, hrun]) ?_ h.filled.free h.filled.table (fun u _ => .refl b d _) ?_ ?_⟩
  · rw [hrun, addEntries_full s.entries hfull]
  · rintro (hun | hun)
    · rcases hd with ⟨hun', _⟩ | ⟨_, rfl⟩
      · rw [hun] at hun'
        cases hun'
      · exact h.seen hun
    · exact (hd.resolve_right fun hd => hd.1 hun).2
  · intro u hut hun
    refine ⟨(hd.resolve_left fun hd => hut ?_).2, rfl⟩
    exact Option.some.inj (hun.symm.trans hd.1)

/-- Nobody waits: the open takes its place in the order and its slot. -/
theorem Sim.claim {t i : Nat} {x : Call Op Answer} {e : OpenFileEntry} {d : Disk}
    (hx : s.history.calls[s.callOf t]? = some x) (hbusy : s.place t ≠ .idle)
    (hwait : s.waiting = []) (hf : (s.place t).fills = none)
    (hopens : Opens b.disk x.op e d)
    (hd : (s.unseen = some t ∧ d = s.fs.disk) ∨ (s.unseen ≠ some t ∧ d = b.disk))
    (hi : i < MAX_OPEN_FILES) (hfree : s.fs.free_open_file_entries i = .FREE)
    (hfirst : ∀ j < i, s.fs.free_open_file_entries j ≠ .FREE) :
    ∃ order' b' a', Sim s₀ (s.move t (.openFill i e)
      { s.fs with
        free_open_file_entries := Function.update s.fs.free_open_file_entries i .TAKEN })
      order' b' a' := by
  have ht : t ∉ s.waiting := by
    rw [hwait]
    simp
  have hentries : s.entries = [] := by
    unfold Threads.entries
    rw [hwait]
    rfl
  have hab : a = b := by rw [h.state, hentries]; rfl
  have hfresh := h.calls.fresh t hbusy ht hf
  have hadd : addEntry { b with disk := d } e = ((i : Int), withHandle { b with disk := d } i e) := by
    rw [← h.filled.free] at hfree hfirst
    exact addEntry_first (s := { b with disk := d }) hi hfree hfirst e
  have hexec := hopens a h.disk_eq
  rw [hab, hadd, ← hab] at hexec
  have hpoint := h.lin.point hx hfresh
  have hinv := h.inv.exec x.op
  have hnames := h.names x.op
  rw [hexec, hab] at hpoint hinv hnames
  have hqueue := h.queue.move_off (p := .openFill i e) ht rfl
    { s.fs with
      free_open_file_entries := Function.update s.fs.free_open_file_entries i .TAKEN } s.history
  rw [Threads.move_off ht rfl] at hqueue ⊢
  have hfilled := h.filled.claim (i := i) (e := e) hf (fun u => (h.not_used hfree u).2)
    (fun u hu => (h.not_used hfree u).1 (Place.uses_of_reads hu)) d
  refine ⟨_, withHandle { b with disk := d } i e, _, hpoint, hinv, hfilled, hqueue, ?_, ?_, ?_, ?_, ?_⟩
  · refine h.calls.step t _ _ _ (fun u hu => Function.update_of_ne hu ..) (fun _ _ => rfl)
      (fun _ _ hu => hu) (fun _ _ _ => rfl) (fun u hut hu _ => h.callOf_ne hbusy hu hut)
      (fun q hq => List.mem_append_left _ hq) ?_ hnames
      (fun u _ => h.stays_withHandle hfree e d u) ?_ ?_ ?_
    · exact fun u hut hu hc => h.old_call hbusy hu hut hc
    · simp only [Function.update_self]
      exact fun _ => h.known_claimed hbusy hi e _
    · simp only [Function.update_self]
      intro _ _ hno
      cases hno
    · simp only [Function.update_self]
      intro j hj
      cases hj
      exact List.mem_append_right _ List.mem_cons_self
  · simp only [Threads.entries, hwait]
    rfl
  · simp only [Threads.entries, hwait]
    exact .nil
  · intro hun
    simp only at hun
    rcases hd with ⟨_, rfl⟩ | ⟨hne, rfl⟩
    · rfl
    · rw [if_neg hne] at hun
      exact h.seen hun
  · intro u hu
    obtain ⟨hut, hun⟩ := unseen_other hu
    obtain ⟨y, hy, ho⟩ := h.unseen u hun
    obtain ⟨_, rfl⟩ := hd.resolve_left fun hd => hut (Option.some.inj (hun.symm.trans hd.1))
    simp only [Function.update_of_ne hut]
    exact ⟨y, hy, ho⟩

/-- An open that has its place in the order ends. -/
theorem Sim.ends {t : Nat} {r : Answer} (hbusy : s.place t ≠ .idle) (fs' b' : State)
    (waiting : List Nat) (hmem : (s.callOf t, r) ∈ order)
    (hfilled : Filled (Function.update s.place t .idle) fs' b')
    (hqueue : Queue { s with
      fs := fs', place := Function.update s.place t .idle, waiting := waiting })
    (hsub : ∀ u ≠ t, u ∈ s.waiting → u ∈ waiting) (hdisk : b'.disk = b.disk ∧ fs'.disk = s.fs.disk)
    (hslots : ∀ u ≠ t, SlotStays b b' (s.place u))
    (hstate : a = (runs.run addEntry b'
      (waiting.map fun u => (Function.update s.place t .idle u).entry)).2)
    (hans : List.Forall₂ (fun u r => (s.callOf u, (⟨r, []⟩ : Answer)) ∈ order) waiting
      (runs.run addEntry b' (waiting.map fun u => (Function.update s.place t .idle u).entry)).1) :
    Sim s₀
      { s with
        fs := fs'
        place := Function.update s.place t .idle
        waiting := waiting
        history := s.history.ret (s.callOf t) r } order b' a := by
  have hcalls : ∀ u ≠ t, s.place u ≠ .idle → (s.history.ret (s.callOf t) r).calls[s.callOf u]? =
      s.history.calls[s.callOf u]? :=
    fun u hut hu => s.history.ret_of_ne (h.callOf_ne hbusy hu hut) r
  refine ⟨h.lin.ret hmem, h.inv, hfilled, ⟨hqueue.nodup, hqueue.waits, hqueue.once⟩, ?_, hstate, hans,
    ?_, ?_⟩
  · refine h.calls.step t _ _ _ (fun u hu => Function.update_of_ne hu ..) (fun _ _ => rfl) hsub hcalls
      (fun u _ _ hself => (hself (Function.update_self ..)).elim) (fun _ hq => hq)
      (fun _ _ _ hu => hu) ?_ hslots (fun hself => (hself (Function.update_self ..)).elim)
      (fun hself => (hself (Function.update_self ..)).elim) ?_
    · rw [hdisk.1]
      exact fun _ _ _ hl => hl
    · simp only [Function.update_self]
      intro i hi
      cases hi
  · rw [hdisk.1, hdisk.2]
    exact h.seen
  · intro u hu
    have hwaits := (hqueue.waits u).mpr (Or.inr hu)
    have hut : u ≠ t := by
      rintro rfl
      simp only [Function.update_self] at hwaits
      cases hwaits
    simp only [Function.update_of_ne hut] at hwaits ⊢
    obtain ⟨y, hy, ho⟩ := h.unseen u hu
    rw [hdisk.1, hdisk.2]
    exact ⟨y, (hcalls u hut (Place.not_idle_of_waits hwaits)).trans hy, ho⟩

/-- The table is full: an open that waits gets no slot. -/
theorem Sim.claim_waiting_fails {t : Nat} (hmem : t ∈ s.waiting) (hf : (s.place t).fills = none)
    (hfull : ∀ i < MAX_OPEN_FILES, s.fs.free_open_file_entries i ≠ .FREE) :
    Sim s₀ { s.move t .idle s.fs with history := s.history.ret (s.callOf t) ⟨-1, []⟩ } order b a := by
  have hwaits := (h.queue.waits t).mpr (Or.inl hmem)
  rw [← h.filled.free] at hfull
  have hab : a = b := by rw [h.state, addEntries_full s.entries hfull]
  have hall : ∀ u ∈ s.waiting, (s.callOf u, (⟨-1, []⟩ : Answer)) ∈ order := by
    have hans := h.answers
    rw [addEntries_full s.entries hfull, Threads.entries, List.map_map] at hans
    rw [List.forall₂_map_right_iff, List.forall₂_same] at hans
    exact hans
  rw [h.queue.move_waiting s.fs hmem rfl]
  refine h.ends (Place.not_idle_of_waits hwaits) s.fs b (s.waiting.erase t) (hall t hmem)
    (h.filled.move hf rfl h.filled.free h.filled.table fun i hi => by cases hi)
    (h.queue.leave hmem rfl s.fs) (fun u hut hu => (List.mem_erase_of_ne hut).mpr hu) ⟨rfl, rfl⟩
    (fun u _ => .refl b b.disk _) ?_ ?_
  · rw [addEntries_full _ hfull]
    exact hab
  · rw [addEntries_full _ hfull, List.map_map, List.forall₂_map_right_iff, List.forall₂_same]
    exact fun u hu => hall u (List.mem_of_mem_erase hu)

/-- The first open that waits gets its slot. -/
theorem Sim.claim_waiting {t i : Nat} {rest : List Nat} {e : OpenFileEntry}
    (hwait : s.waiting = t :: rest) (he : (s.place t).entry = e)
    (hf : (s.place t).fills = none) (hi : i < MAX_OPEN_FILES)
    (hfree : s.fs.free_open_file_entries i = .FREE)
    (hfirst : ∀ j < i, s.fs.free_open_file_entries j ≠ .FREE) :
    Sim s₀ (s.move t (.openFill i e)
      { s.fs with
        free_open_file_entries := Function.update s.fs.free_open_file_entries i .TAKEN })
      order (withHandle b i e) a := by
  have hmem : t ∈ s.waiting := by
    rw [hwait]
    exact List.mem_cons_self
  have hbusy := Place.not_idle_of_waits ((h.queue.waits t).mpr (Or.inl hmem))
  have herase : s.waiting.erase t = rest := by
    rw [hwait]
    exact List.erase_cons_head ..
  have hadd : addEntry b e = ((i : Int), withHandle b i e) := by
    rw [← h.filled.free] at hfree hfirst
    exact addEntry_first hi hfree hfirst e
  have hnodup := h.queue.nodup
  rw [hwait, List.nodup_cons] at hnodup
  have hentries : (rest.map fun u => (Function.update s.place t (.openFill i e) u).entry) =
      rest.map fun u => (s.place u).entry := entries_update _ hnodup.1 _
  have hstate := h.state
  have hans := h.answers
  rw [Threads.entries, hwait, List.map_cons, he] at hstate hans
  simp only [runs.run, hadd] at hstate hans
  rw [List.forall₂_cons] at hans
  have hqueue := h.queue.leave (p := .openFill i e) hmem rfl
    { s.fs with
      free_open_file_entries := Function.update s.fs.free_open_file_entries i .TAKEN }
  rw [h.queue.move_waiting _ hmem rfl]
  refine ⟨h.lin, h.inv, h.filled.claim hf (fun u => (h.not_used hfree u).2)
    (fun u hu => (h.not_used hfree u).1 (Place.uses_of_reads hu)) b.disk, hqueue, ?_, ?_, ?_, h.seen, ?_⟩
  · refine h.calls.step t _ _ _ (fun u hu => Function.update_of_ne hu ..) (fun _ _ => rfl)
      (fun u hut hu => (List.mem_erase_of_ne hut).mpr hu) (fun _ _ _ => rfl)
      (fun u hut hu _ => h.callOf_ne hbusy hu hut) (fun _ hq => hq) (fun _ _ _ hu => hu)
      (fun _ _ _ hl => hl) (fun u _ => h.stays_withHandle hfree e b.disk u) ?_ ?_ ?_
    · simp only [Function.update_self]
      exact fun _ => h.known_claimed hbusy hi e _
    · simp only [Function.update_self]
      intro _ _ hno
      cases hno
    · simp only [Function.update_self]
      intro j hj
      cases hj
      exact hans.1
  · simp only [Threads.entries, herase, hentries]
    exact hstate
  · simp only [Threads.entries, herase, hentries]
    exact hans.2
  · intro u hu
    have hut : u ≠ t := by
      rintro rfl
      exact h.queue.once u hu hmem
    simp only [Function.update_of_ne hut]
    exact h.unseen u hu

/-- The slot that was claimed is filled, and the open ends. -/
theorem Sim.fill {t i : Nat} {e : OpenFileEntry} (hp : s.place t = .openFill i e) :
    Sim s₀ { s.move t .idle (fillEntry s.fs i e) with
      history := s.history.ret (s.callOf t) ⟨i, []⟩ } order b a := by
  have hbusy : s.place t ≠ .idle := by rw [hp]; simp
  have hf : (s.place t).fills = some i := by rw [hp]; rfl
  obtain ⟨x, _, hat⟩ := h.known hbusy
  rw [hp] at hat
  have hw : Place.idle.waits = (s.place t).waits := by rw [hp]; rfl
  have hoff := (h.queue.not_waiting hw.symm).1
  rw [h.queue.move_same _ hw]
  have hentries := entries_update s.place hoff .idle
  refine h.ends hbusy (fillEntry s.fs i e) b s.waiting (h.calls.filling t i hf)
    (h.filled.fill hp hat.2) ⟨h.queue.nodup, fun u => ?_, h.queue.once⟩ (fun _ _ hu => hu) ⟨rfl, rfl⟩
    (fun u _ => .refl b b.disk _) ?_ ?_
  · simp only [waits_update hw]
    exact h.queue.waits u
  · rw [hentries]
    exact h.state
  · rw [hentries]
    exact h.answers

/-! ## A new call -/

theorem Sim.call {t : Nat} {op : Op} {p : Place} (hidle : s.place t = .idle)
    (hp : firstPlace op = some p) :
    Sim s₀
      { s.move t p s.fs with
        callOf := Function.update s.callOf t s.history.calls.length
        history := s.history.call op } order b a := by
  have hfirst : p.waits = false ∧ p.fills = none ∧ p.reads = none ∧ p ≠ .idle ∧ AtPlace b op p := by
    cases op <;> cases hp <;> exact ⟨rfl, rfl, rfl, by simp, rfl⟩
  obtain ⟨hw, hf, hr, hne, hat⟩ := hfirst
  have hw' : p.waits = (s.place t).waits := by rw [hw, hidle]; rfl
  have hf' : (s.place t).fills = none := by rw [hidle]; rfl
  obtain ⟨hwait, _⟩ := h.queue.not_waiting (hw'.symm.trans hw)
  rw [h.queue.move_same _ hw']
  have hentries := entries_update s.place hwait p
  have hlt : ∀ u, s.place u ≠ .idle → s.callOf u < s.history.calls.length := by
    intro u hu
    obtain ⟨x, hx, _⟩ := h.calls.known u hu
    exact (List.getElem?_eq_some_iff.mp hx).1
  have hcalls : ∀ u, s.place u ≠ .idle →
      (s.history.call op).calls[s.callOf u]? = s.history.calls[s.callOf u]? :=
    fun u hu => s.history.call_of_lt op (hlt u hu)
  have hother : ∀ u, (s.place u).waits = true → u ≠ t := by
    rintro u hu rfl
    rw [hidle] at hu
    cases hu
  refine ⟨h.lin.call op, h.inv, h.filled.move hf' hf h.filled.free h.filled.table ?_,
    ⟨h.queue.nodup, fun u => ?_, h.queue.once⟩, ?_, ?_, ?_, h.seen, fun u hu => ?_⟩
  · intro i hi
    rw [hr] at hi
    cases hi
  · simp only [waits_update hw']
    exact h.queue.waits u
  · refine h.calls.step t _ _ _ (fun u hu => Function.update_of_ne hu ..)
      (fun u hu => Function.update_of_ne hu ..) (fun _ _ hu => hu) (fun u _ hu => hcalls u hu)
      (fun u _ hu _ => ?_) (fun _ hq => hq) (fun _ _ _ hu => hu) (fun _ _ _ hl => hl)
      (fun u _ => .refl b b.disk _) ?_ ?_ ?_
    · simp only [Function.update_self]
      exact Nat.ne_of_lt (hlt u hu)
    · simp only [Function.update_self]
      exact fun _ => ⟨_, s.history.call_last op, rfl, hat⟩
    · simp only [Function.update_self]
      intro _ _ _ hmem
      exact absurd (h.lin.lt_of_mem hmem) (Nat.lt_irrefl _)
    · simp only [Function.update_self, hf]
      intro i hi
      cases hi
  · simp only [Threads.entries, hentries]
    exact h.state
  · simp only [Threads.entries, hentries]
    have hne' : ∀ u ∈ s.waiting, Function.update s.callOf t s.history.calls.length u = s.callOf u := by
      intro u hu
      exact Function.update_of_ne (hother u ((h.queue.waits u).mpr (Or.inl hu))) ..
    refine ((List.forall₂_and_left _ _).mpr ⟨hne', h.answers⟩).imp fun u r hq => ?_
    rw [hq.1]
    exact hq.2
  · have hwaits := (h.queue.waits u).mpr (Or.inr hu)
    have hut := hother u hwaits
    obtain ⟨y, hy, ho⟩ := h.unseen u hu
    simp only [Function.update_of_ne hut]
    exact ⟨y, (hcalls u (Place.not_idle_of_waits hwaits)).trans hy, ho⟩

end

end tecnicofs.parte1
