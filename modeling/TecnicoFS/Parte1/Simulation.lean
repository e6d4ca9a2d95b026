-- The threads and the sequential calls side by side: what each thread knows at its
-- place, and the sequential state that the order of the calls so far leads to.
import TecnicoFS.Parte1.Effects

open linearizability

namespace tecnicofs.parte1

/-! ## Careless steps -/

/-- What goes wrong when threads use the table of open files at the same time:
the size that an open with a truncation reads is that of a later write; an open claims the slot of
an open that waits before it; a slot becomes free, or is found free, that an open which waits
is to get; a slot is closed while it is in use; an entry is read that is not filled. -/
def Careless (s : Threads) : ThreadStep → Prop
  | .call _ _ => False
  | .go t =>
    match s.place t with
    | .openSize flags _ inode =>
      hasFlag flags TFS_O_TRUNC = true ∧ (s.fs.disk.inode_table inode).i_size ≠ 0
    | .openClaim _ _ _ _ =>
      s.waiting ≠ [] ∧ s.waiting.head? ≠ some t ∧
        ∃ i < MAX_OPEN_FILES, s.fs.free_open_file_entries i = .FREE
    | .close fhandle =>
      ∃ i < MAX_OPEN_FILES, fhandle = i ∧ (freeBelow s.fs i < s.waiting.length ∨
        ∃ t', (s.place t').uses = some i ∨ (s.place t').fills = some i)
    | .writeCheck fhandle _ | .readCheck fhandle _ =>
      ∃ i < MAX_OPEN_FILES, fhandle = i ∧ s.fs.free_open_file_entries i = .FREE ∧
        freeBelow s.fs i < s.waiting.length
    | .writeInumber i _ | .readInumber i _ => ∃ t', (s.place t').fills = some i
    | _ => False

/-! ## What a thread knows at its place -/

/-- The slot whose entry the thread has begun to read. -/
def Place.reads : Place → Option Nat
  | .writeLocked i _ _ => some i
  | .readIsAppending i _ _ => some i
  | .readLocked i _ _ => some i
  | _ => none

/-- The entry of an open that waits. -/
def Place.entry : Place → OpenFileEntry
  | .openSize _ inum _ => ⟨inum, 0, true⟩
  | .openClaim inum offset isAppending _ => ⟨inum, offset, isAppending⟩
  | _ => ⟨0, 0, false⟩

/-- Slot `i` is open. -/
def Taken (b : State) (i : Nat) : Prop :=
  i < MAX_OPEN_FILES ∧ b.free_open_file_entries i = .TAKEN

/-- What a thread in the call `op` knows of the state, at its place. -/
def AtPlace (b : State) (op : Op) : Place → Prop
  | .idle => False
  | .openLookup name flags => op = .tfsOpen name flags
  | .openCreate path flags =>
    op = .tfsOpen (some path) flags ∧ validPathname (some path) = true ∧
      hasFlag flags TFS_O_CREAT = true
  | .openTruncate flags inum inode =>
    Found b.disk op flags inum ∧ inodeGet inum = some inode ∧ hasFlag flags TFS_O_TRUNC = true
  | .openSize flags inum inode =>
    hasFlag flags TFS_O_APPEND = true ∧ (hasFlag flags TFS_O_TRUNC = false →
      Found b.disk op flags inum ∧ inodeGet inum = some inode)
  | .openClaim inum offset isAppending effect =>
    effect = false → offset = 0 ∧ isAppending = false ∧ ∃ flags inode,
      Found b.disk op flags inum ∧ inodeGet inum = some inode ∧
        hasFlag flags TFS_O_TRUNC = false ∧ hasFlag flags TFS_O_APPEND = false
  | .openFill i e => Taken b i ∧ b.open_file_table i = e
  | .close fhandle => op = .tfsClose fhandle
  | .writeCheck fhandle buffer => op = .tfsWrite fhandle buffer
  | .writeInumber i buffer => op = .tfsWrite i buffer ∧ Taken b i
  | .writeLocked i inode buffer =>
    op = .tfsWrite i buffer ∧ Taken b i ∧ inodeGet (b.open_file_table i).of_inumber = some inode
  | .readCheck fhandle len => op = .tfsRead fhandle len
  | .readInumber i len => op = .tfsRead i len ∧ Taken b i
  | .readIsAppending i inode len =>
    op = .tfsRead i len ∧ Taken b i ∧ inodeGet (b.open_file_table i).of_inumber = some inode
  | .readLocked i inode len =>
    op = .tfsRead i len ∧ Taken b i ∧ inodeGet (b.open_file_table i).of_inumber = some inode ∧
      (b.open_file_table i).isAppending = false

/-- A name that is found on the one disk is found on the other. -/
def NamesStay (d d' : Disk) : Prop :=
  ∀ path n, 0 ≤ n → tfsLookup d path = n → tfsLookup d' path = n

/-- The slot that a thread at `p` uses or fills stays with its file. -/
structure SlotStays (b b' : State) (p : Place) : Prop where
  taken : ∀ i, p.uses = some i ∨ p.fills = some i → Taken b i → Taken b' i
  file : ∀ i, p.uses = some i → Taken b i →
    (b'.open_file_table i).of_inumber = (b.open_file_table i).of_inumber ∧
      (b'.open_file_table i).isAppending = (b.open_file_table i).isAppending
  entry : ∀ i, p.fills = some i → Taken b i → b'.open_file_table i = b.open_file_table i

theorem SlotStays.refl (b : State) (d : Disk) (p : Place) : SlotStays b { b with disk := d } p :=
  ⟨fun _ _ h => h, fun _ _ _ => ⟨rfl, rfl⟩, fun _ _ _ => rfl⟩

theorem AtPlace.keep {b b' : State} {op : Op} {p : Place} (h : AtPlace b op p)
    (hn : NamesStay b.disk b'.disk) (hk : SlotStays b b' p) : AtPlace b' op p := by
  cases p with
  | idle => exact h
  | openLookup name flags => exact h
  | openCreate path flags => exact h
  | openTruncate flags inum inode => exact ⟨h.1.mono hn, h.2⟩
  | openSize flags inum inode =>
    exact ⟨h.1, fun ht => ⟨(h.2 ht).1.mono hn, (h.2 ht).2⟩⟩
  | openClaim inum offset isAppending effect =>
    intro he
    obtain ⟨h1, h2, flags, inode, h3, h4⟩ := h he
    exact ⟨h1, h2, flags, inode, h3.mono hn, h4⟩
  | openFill i e => exact ⟨hk.taken i (Or.inr rfl) h.1, (hk.entry i rfl h.1).trans h.2⟩
  | close fhandle => exact h
  | writeCheck fhandle buffer => exact h
  | writeInumber i buffer => exact ⟨h.1, hk.taken i (Or.inl rfl) h.2⟩
  | writeLocked i inode buffer =>
    obtain ⟨hop, ht, hi⟩ := h
    exact ⟨hop, hk.taken i (Or.inl rfl) ht, by rw [(hk.file i rfl ht).1, hi]⟩
  | readCheck fhandle len => exact h
  | readInumber i len => exact ⟨h.1, hk.taken i (Or.inl rfl) h.2⟩
  | readIsAppending i inode len =>
    obtain ⟨hop, ht, hi⟩ := h
    exact ⟨hop, hk.taken i (Or.inl rfl) ht, by rw [(hk.file i rfl ht).1, hi]⟩
  | readLocked i inode len =>
    obtain ⟨hop, ht, hi, ha⟩ := h
    exact ⟨hop, hk.taken i (Or.inl rfl) ht, by rw [(hk.file i rfl ht).1, hi],
      (hk.file i rfl ht).2.trans ha⟩

/-! ## The simulation -/

/-- The entries of the opens that wait. -/
def Threads.entries (s : Threads) : List OpenFileEntry := s.waiting.map fun t => (s.place t).entry

/-- The table of open files with every claimed slot filled. -/
structure Filled (place : Nat → Place) (fs b : State) : Prop where
  free : b.free_open_file_entries = fs.free_open_file_entries
  table : ∀ i, (∀ t, (place t).fills ≠ some i) → b.open_file_table i = fs.open_file_table i
  one : ∀ t t' i, (place t).fills = some i → (place t').fills = some i → t = t'
  settled : ∀ t t' i, (place t).reads = some i → (place t').fills ≠ some i

/-- The threads whose open has had its effect on the disk. -/
structure Queue (s : Threads) : Prop where
  nodup : s.waiting.Nodup
  waits : ∀ t, (s.place t).waits = true ↔ t ∈ s.waiting ∨ s.unseen = some t
  once : ∀ t, s.unseen = some t → t ∉ s.waiting

/-- The calls of the threads: one that goes on for each busy thread. It is in the order if its
open waits or fills its slot. -/
structure InCalls (s : Threads) (order : List (Nat × Answer)) (b : State) : Prop where
  distinct : ∀ t t', s.place t ≠ .idle → s.place t' ≠ .idle → s.callOf t = s.callOf t' → t = t'
  known : ∀ t, s.place t ≠ .idle → ∃ x, s.history.calls[s.callOf t]? = some x ∧ x.finish = none ∧
    AtPlace b x.op (s.place t)
  fresh : ∀ t, s.place t ≠ .idle → t ∉ s.waiting → (s.place t).fills = none →
    s.callOf t ∉ order.map Prod.fst
  filling : ∀ t i, (s.place t).fills = some i → (s.callOf t, ⟨i, []⟩) ∈ order

/-- The order leads to the sequential state `a`. It is the state `b`, in which every claimed slot
is filled, after the opens that wait have got their slots. The disk of `b` is the one before the
effect that nobody has seen. -/
structure Sim (s₀ : State) (s : Threads) (order : List (Nat × Answer)) (b a : State) : Prop where
  lin : Linearizes exec s₀ s.history order a
  inv : Inv a
  filled : Filled s.place s.fs b
  queue : Queue s
  calls : InCalls s order b
  state : a = (runs.run addEntry b s.entries).2
  answers : List.Forall₂ (fun t r => (s.callOf t, (⟨r, []⟩ : Answer)) ∈ order) s.waiting
    (runs.run addEntry b s.entries).1
  seen : s.unseen = none → b.disk = s.fs.disk
  unseen : ∀ t, s.unseen = some t → ∃ x, s.history.calls[s.callOf t]? = some x ∧
    Opens b.disk x.op (s.place t).entry s.fs.disk

/-! ## What a step keeps -/

section
variable {place : Nat → Place} {fs fs' b b' : State} {t : Nat} {p : Place}

/-- A step of a thread that fills no slot before and after it. -/
theorem Filled.move (h : Filled place fs b) (hf : (place t).fills = none) (hp : p.fills = none)
    (hfree : b'.free_open_file_entries = fs'.free_open_file_entries)
    (htable : ∀ i, (∀ t, (place t).fills ≠ some i) → b'.open_file_table i = fs'.open_file_table i)
    (hread : ∀ i, p.reads = some i → ∀ t, (place t).fills ≠ some i) :
    Filled (Function.update place t p) fs' b' := by
  have hfills : ∀ u, (Function.update place t p u).fills = (place u).fills := by
    intro u
    by_cases hu : u = t
    · subst hu
      rw [Function.update_self, hp, hf]
    · rw [Function.update_of_ne hu]
  refine ⟨hfree, fun i hi => ?_, fun u u' i hu hu' => ?_, fun u u' i hu => ?_⟩
  · apply htable i
    intro u
    rw [← hfills u]
    exact hi u
  · rw [hfills] at hu hu'
    exact h.one u u' i hu hu'
  · rw [hfills]
    by_cases hut : u = t
    · subst hut
      rw [Function.update_self] at hu
      exact hread i hu u'
    · rw [Function.update_of_ne hut] at hu
      exact h.settled u u' i hu

/-- An open claims the free slot `i`. Nobody reads it or fills it. -/
theorem Filled.claim (h : Filled place fs b) {i : Nat} {e : OpenFileEntry}
    (hf : (place t).fills = none)
    (hfills : ∀ u, (place u).fills ≠ some i) (hreads : ∀ u, (place u).reads ≠ some i) (d : Disk) :
    Filled (Function.update place t (.openFill i e))
      { fs with
        free_open_file_entries := Function.update fs.free_open_file_entries i .TAKEN }
      (withHandle { b with disk := d } i e) := by
  have hother : ∀ {u}, u ≠ t → Function.update place t (.openFill i e) u = place u :=
    fun hu => Function.update_of_ne hu ..
  have hself : (Function.update place t (.openFill i e) t).fills = some i := by
    rw [Function.update_self]
    rfl
  refine ⟨?_, fun j hj => ?_, fun u u' j hu hu' => ?_, fun u u' j hu hu' => ?_⟩
  · simp only [withHandle, h.free]
  · have hji : j ≠ i := by
      rintro rfl
      exact hj t hself
    simp only [withHandle, Function.update_of_ne hji]
    apply h.table j
    intro u
    by_cases hu : u = t
    · subst hu
      rw [hf]
      simp
    · rw [← hother hu]
      exact hj u
  · by_cases hut : u = t <;> by_cases hut' : u' = t
    · rw [hut, hut']
    · subst hut
      rw [hself] at hu
      rw [hother hut', ← hu] at hu'
      exact absurd hu' (hfills u')
    · subst hut'
      rw [hself] at hu'
      rw [hother hut, ← hu'] at hu
      exact absurd hu (hfills u)
    · rw [hother hut] at hu
      rw [hother hut'] at hu'
      exact h.one u u' j hu hu'
  · have hut : u ≠ t := by
      rintro rfl
      rw [Function.update_self] at hu
      cases hu
    rw [hother hut] at hu
    by_cases hut' : u' = t
    · subst hut'
      rw [hself] at hu'
      rw [← hu'] at hu
      exact hreads u hu
    · rw [hother hut'] at hu'
      exact h.settled u u' j hu hu'

/-- The slot that was claimed is filled. -/
theorem Filled.fill (h : Filled place fs b) {i : Nat} {e : OpenFileEntry}
    (ht : place t = .openFill i e) (he : b.open_file_table i = e) :
    Filled (Function.update place t .idle) (fillEntry fs i e) b := by
  have hti : (place t).fills = some i := by
    rw [ht]
    rfl
  have hother : ∀ {u j}, (Function.update place t .idle u).fills = some j →
      u ≠ t ∧ (place u).fills = some j := by
    intro u j hu
    by_cases hut : u = t
    · subst hut
      rw [Function.update_self] at hu
      cases hu
    · rw [Function.update_of_ne hut] at hu
      exact ⟨hut, hu⟩
  refine ⟨h.free, fun j hj => ?_, fun u u' j hu hu' => ?_, fun u u' j hu hu' => ?_⟩
  · by_cases hji : j = i
    · subst hji
      simp only [he, fillEntry, Function.update_self]
    · simp only [fillEntry, Function.update_of_ne hji]
      refine h.table j fun u hu => hj u ?_
      have hut : u ≠ t := by
        rintro rfl
        rw [hti] at hu
        exact hji (Option.some.inj hu).symm
      rw [Function.update_of_ne hut]
      exact hu
  · exact h.one u u' j (hother hu).2 (hother hu').2
  · refine h.settled u u' j ?_ (hother hu').2
    by_cases hut : u = t
    · subst hut
      rw [Function.update_self] at hu
      cases hu
    · rwa [Function.update_of_ne hut] at hu

end

section
variable {s : Threads} (h : Queue s) {t : Nat} {p : Place} (fs : State)
include h

theorem Queue.not_waiting (hw : (s.place t).waits = false) :
    t ∉ s.waiting ∧ s.unseen ≠ some t := by
  rw [← not_or, ← h.waits t, hw]
  simp

/-- The thread waits before the step and after it, or neither before nor after it. -/
theorem Queue.move_same (hp : p.waits = (s.place t).waits) :
    s.move t p fs = { s with fs := fs, place := Function.update s.place t p } := by
  unfold Threads.move
  cases hw : (s.place t).waits with
  | false =>
    obtain ⟨h1, h2⟩ := h.not_waiting hw
    rw [hw] at hp
    simp only [hp, Bool.false_eq_true, false_and, if_false, h2, List.erase_of_not_mem h1]
  | true =>
    rw [hw] at hp
    rcases (h.waits t).mp hw with hmem | hun
    · have hne : s.unseen ≠ some t := fun hun => h.once t hun hmem
      simp only [hp, true_and, hmem, not_true_eq_false, if_false, hne, if_true]
    · simp only [hp, true_and, h.once t hun, not_false_eq_true, if_true, ← hun]

/-- The open has its effect. -/
theorem Queue.move_effect (hw : (s.place t).waits = false) (hp : p.waits = true) :
    s.move t p fs =
      { s with fs := fs, place := Function.update s.place t p, unseen := some t } := by
  simp only [Threads.move, hp, (h.not_waiting hw).1, not_false_eq_true, and_self, if_true]

/-- An open that waits gets its slot. -/
theorem Queue.move_waiting (hmem : t ∈ s.waiting) (hp : p.waits = false) :
    s.move t p fs =
      { s with
        fs := fs
        place := Function.update s.place t p
        waiting := s.waiting.erase t } := by
  have hne : s.unseen ≠ some t := fun hun => h.once t hun hmem
  simp only [Threads.move, hp, Bool.false_eq_true, false_and, if_false, hne]

end

/-- A step of thread `t`. The other threads are at their places, in their calls, and may learn
that more names are found. -/
theorem InCalls.step {s : Threads} {order : List (Nat × Answer)} {b : State} (h : InCalls s order b)
    (t : Nat) (s' : Threads) (order' : List (Nat × Answer)) (b' : State)
    (hplace : ∀ u ≠ t, s'.place u = s.place u) (hcallOf : ∀ u ≠ t, s'.callOf u = s.callOf u)
    (hwaiting : ∀ u ≠ t, u ∈ s.waiting → u ∈ s'.waiting)
    (hcalls : ∀ u ≠ t, s.place u ≠ .idle →
      s'.history.calls[s.callOf u]? = s.history.calls[s.callOf u]?)
    (hother : ∀ u ≠ t, s.place u ≠ .idle → s'.place t ≠ .idle → s.callOf u ≠ s'.callOf t)
    (hold : ∀ q ∈ order, q ∈ order')
    (hnew : ∀ u ≠ t, s.place u ≠ .idle → s.callOf u ∈ order'.map Prod.fst →
      s.callOf u ∈ order.map Prod.fst)
    (hnames : NamesStay b.disk b'.disk) (hslots : ∀ u ≠ t, SlotStays b b' (s.place u))
    (hknown : s'.place t ≠ .idle → ∃ x, s'.history.calls[s'.callOf t]? = some x ∧
      x.finish = none ∧ AtPlace b' x.op (s'.place t))
    (hfresh : s'.place t ≠ .idle → t ∉ s'.waiting → (s'.place t).fills = none →
      s'.callOf t ∉ order'.map Prod.fst)
    (hfilling : ∀ i, (s'.place t).fills = some i → (s'.callOf t, ⟨i, []⟩) ∈ order') :
    InCalls s' order' b' := by
  refine ⟨fun u u' hu hu' he => ?_, fun u hu => ?_, fun u hu hw hf => ?_, fun u i hf => ?_⟩
  · by_cases hut : u = t <;> by_cases hut' : u' = t
    · rw [hut, hut']
    · subst hut
      rw [hplace u' hut'] at hu'
      rw [hcallOf u' hut'] at he
      exact absurd he.symm (hother u' hut' hu' hu)
    · subst hut'
      rw [hplace u hut] at hu
      rw [hcallOf u hut] at he
      exact absurd he (hother u hut hu hu')
    · rw [hplace u hut] at hu
      rw [hplace u' hut'] at hu'
      rw [hcallOf u hut, hcallOf u' hut'] at he
      exact h.distinct u u' hu hu' he
  · by_cases hut : u = t
    · subst hut
      exact hknown hu
    · rw [hplace u hut] at hu ⊢
      obtain ⟨x, hx, hxf, hat⟩ := h.known u hu
      rw [hcallOf u hut, hcalls u hut hu]
      exact ⟨x, hx, hxf, hat.keep hnames (hslots u hut)⟩
  · by_cases hut : u = t
    · subst hut
      exact hfresh hu hw hf
    · rw [hplace u hut] at hu hf
      rw [hcallOf u hut]
      exact fun hc => h.fresh u hu (fun hmem => hw (hwaiting u hut hmem)) hf (hnew u hut hu hc)
  · by_cases hut : u = t
    · subst hut
      exact hfilling i hf
    · rw [hplace u hut] at hf
      rw [hcallOf u hut]
      exact hold _ (h.filling u i hf)

/-- Thread `t` goes on in its call, and the order stays. -/
theorem InCalls.move {s : Threads} {order : List (Nat × Answer)} {b : State} (h : InCalls s order b)
    {t : Nat} {p : Place} (hbusy : s.place t ≠ .idle) (hf : (s.place t).fills = none)
    (hpf : p.fills = none) (hat : ∀ op, AtPlace b op (s.place t) → AtPlace b op p) (fs : State)
    (unseen : Option Nat) :
    InCalls { s with fs := fs, place := Function.update s.place t p, unseen := unseen } order b := by
  obtain ⟨x, hx, hxf, hknown⟩ := h.known t hbusy
  refine h.step t _ order b (fun u hu => Function.update_of_ne hu ..) (fun _ _ => rfl)
    (fun _ _ hu => hu) (fun _ _ _ => rfl) (fun u hut hu _ he => hut (h.distinct u t hu hbusy he))
    (fun _ hq => hq) (fun _ _ _ hu => hu) (fun _ _ _ hl => hl) (fun u _ => .refl b b.disk _) ?_ ?_ ?_
  · simp only [Function.update_self]
    exact fun _ => ⟨x, hx, hxf, hat x.op hknown⟩
  · exact fun _ hn _ => h.fresh t hbusy hn hf
  · simp only [Function.update_self, hpf]
    intro i hi
    cases hi

/-- The entries of the opens that wait stay when a thread that does not wait moves. -/
theorem entries_update {waiting : List Nat} (place : Nat → Place) {t : Nat} (hn : t ∉ waiting)
    (p : Place) : (waiting.map fun u => (Function.update place t p u).entry) =
      waiting.map fun u => (place u).entry := by
  apply List.map_congr_left
  intro u hu
  have hut : u ≠ t := by
    rintro rfl
    exact hn hu
  rw [Function.update_of_ne hut]

theorem waits_update {place : Nat → Place} {t : Nat} {p : Place}
    (hp : p.waits = (place t).waits) (u : Nat) :
    (Function.update place t p u).waits = (place u).waits := by
  by_cases hu : u = t
  · subst hu
    rw [Function.update_self, hp]
  · rw [Function.update_of_ne hu]

end tecnicofs.parte1
