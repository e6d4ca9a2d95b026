-- Each step of an open that is not careless keeps the simulation, one place after
-- the other.
import TecnicoFS.Parte1.SimulationSteps

open linearizability

namespace tecnicofs.parte1

/-- The thread is in a call, waits for no slot and has none to fill. -/
structure Place.Plain (p : Place) : Prop where
  busy : p ≠ .idle
  waits : p.waits = false
  fills : p.fills = none

/-- What a thread knows at a place where it neither waits nor fills a slot. -/
theorem Sim.at_plain {s₀ : State} {s : Threads} {order : List (Nat × Answer)} {b a : State}
    (h : Sim s₀ s order b a) {t : Nat} {p : Place} (hp : s.place t = p) (hplain : p.Plain) :
    (s.place t).Plain ∧
      ∃ x, s.history.calls[s.callOf t]? = some x ∧ AtPlace b x.op p := by
  subst hp
  exact ⟨hplain, h.known hplain.busy⟩

section
variable {s₀ : State} {s : Threads} {order : List (Nat × Answer)} {b a : State}
  (h : Sim s₀ s order b a) {t : Nat} (hplain : (s.place t).Plain)
include h hplain

/-! ## Steps from a plain place -/

theorem Sim.goOn_plain {p : Place} (hp : p.Plain)
    (hread : ∀ i, p.reads = some i → ∀ u, (s.place u).fills ≠ some i)
    (hat : ∀ op, AtPlace b op (s.place t) → AtPlace b op p) :
    ∃ order' b' a', Sim s₀ (s.move t p s.fs) order' b' a' := by
  refine ⟨order, b, a, h.goOn hplain.busy hplain.fills hp.fills ?_ (fun hw => ?_) hread hat⟩
  · rw [hp.waits, hplain.waits]
  · rw [hp.waits] at hw
    cases hw

/-- A call that changes nothing ends. -/
theorem Sim.finish_same {x : Call Op Answer} (hx : s.history.calls[s.callOf t]? = some x)
    {r : Answer} (hexec : exec a x.op = (r, a)) :
    ∃ order' b' a', Sim s₀ (s.after t (.ret r, s.fs)) order' b' a' := by
  obtain ⟨ht, hun⟩ := h.queue.not_waiting hplain.waits
  refine ⟨_, b, _, h.finish hx hplain.busy ht hplain.fills s.fs b r (by rw [hexec, ← h.state]) rfl
    h.filled.free h.filled.table (fun u _ => .refl b b.disk _) ?_ fun _ _ _ => ⟨rfl, rfl⟩⟩
  exact fun hor => h.seen (hor.resolve_right hun)

/-- A call that changes the disk only ends. -/
theorem Sim.finish_disk {x : Call Op Answer} (hx : s.history.calls[s.callOf t]? = some x)
    (hun : s.unseen = none) {r : Answer} {d : Disk} (hexec : exec a x.op = (r, { a with disk := d })) :
    ∃ order' b' a', Sim s₀ (s.after t (.ret r, { s.fs with disk := d })) order' b' a' := by
  obtain ⟨ht, _⟩ := h.queue.not_waiting hplain.waits
  have hrun := addEntries_setDisk s.entries b d
  refine ⟨_, { b with disk := d }, _, h.finish hx hplain.busy ht hplain.fills
    { s.fs with disk := d } { b with disk := d } r (by rw [hexec, hrun, ← h.state]) (by rw [hrun])
    h.filled.free h.filled.table (fun u _ => .refl b d _) (fun _ => rfl) fun u _ hu => ?_⟩
  rw [hun] at hu
  cases hu

/-! ## The file of an open -/

/-- The file of an open was found. -/
theorem Sim.found {flags : BitVec 32} {inum : Int}
    (hfound : ∀ op, AtPlace b op (s.place t) → Found b.disk op flags inum) :
    ∃ order' b' a', Sim s₀ (s.after t (found flags inum, s.fs)) order' b' a' := by
  obtain ⟨x, hx, hat⟩ := h.known hplain.busy
  unfold parte1.found
  split
  · rename_i hi
    exact h.finish_same hplain hx ((hfound x.op hat).exec_no_inode hi h.disk_eq)
  · rename_i inode hi
    split
    · rename_i ht
      apply h.goOn_plain hplain ⟨by simp, rfl, rfl⟩ (fun i hi => by cases hi)
      exact fun op hop => ⟨hfound op hop, hi, ht⟩
    · rename_i ht
      rw [Bool.not_eq_true] at ht
      split
      · rename_i ha
        have hsize : (Place.openSize flags inum inode).Plain := ⟨by simp, ht, rfl⟩
        apply h.goOn_plain hplain hsize (fun i hi => by cases hi)
        exact fun op hop => ⟨ha, fun _ => ⟨hfound op hop, hi⟩⟩
      · rename_i ha
        rw [Bool.not_eq_true] at ha
        apply h.goOn_plain hplain ⟨by simp, rfl, rfl⟩ (fun i hi => by cases hi)
        exact fun op hop _ => ⟨rfl, rfl, flags, inode, hfound op hop, hi, ht, ha⟩

end

section
variable {s₀ : State} {s : Threads} {order : List (Nat × Answer)} {b a : State}
  (h : Sim s₀ s order b a) {t : Nat}
include h

theorem Sim.openLookup {name : Option CString} {flags : BitVec 32}
    (hp : s.place t = .openLookup name flags) (hun : s.unseen = none) :
    ∃ order' b' a', Sim s₀ (s.after t (advance s.fs (.openLookup name flags))) order' b' a' := by
  obtain ⟨hplain, x, hx, hat⟩ := h.at_plain hp ⟨by simp, rfl, rfl⟩
  have hdisk := h.seen hun
  have hop : x.op = .tfsOpen name flags := hat
  cases name with
  | none => exact h.finish_same hplain hx (by rw [hop]; rfl)
  | some path =>
    by_cases hv : validPathname (some path) = false
    · simp only [advance, hv, if_true]
      apply h.finish_same hplain hx
      simp only [hop, exec, tfsOpen, hv, if_true]
    rw [Bool.not_eq_false] at hv
    simp only [advance, hv, Bool.true_eq_false, if_false]
    split
    · rename_i h0
      apply h.found hplain
      intro op hop
      rw [hp] at hop
      exact ⟨path, hop, hv, by rw [hdisk], h0⟩
    · rename_i h0
      split
      · rename_i hc
        apply h.goOn_plain hplain ⟨by simp, rfl, rfl⟩ (fun i hi => by cases hi)
        intro op hop
        rw [hp] at hop
        exact ⟨hop, hv, hc⟩
      · rename_i hc
        apply h.finish_same hplain hx
        rw [← hdisk, ← h.disk_eq] at h0
        simp only [hop, exec, tfsOpen, hv, Bool.true_eq_false, if_false, h0, hc, Bool.false_eq_true]

theorem Sim.openCreate {path : CString} {flags : BitVec 32}
    (hp : s.place t = .openCreate path flags) (hun : s.unseen = none) :
    ∃ order' b' a', Sim s₀ (s.after t (advance s.fs (.openCreate path flags))) order' b' a' := by
  obtain ⟨hplain, x, hx, hat⟩ := h.at_plain hp ⟨by simp, rfl, rfl⟩
  have hdisk := h.seen hun
  obtain ⟨hop, hv, hc⟩ := hat
  rcases hcr : createCritical s.fs.disk path with ⟨⟨inum⟩ | _ | ⟨inum⟩, d⟩ <;>
    simp only [advance, hcr]
  · obtain ⟨hl, h0, rfl⟩ := createCritical_found hcr
    apply h.found hplain
    intro op hat
    rw [hp] at hat
    exact ⟨path, hat.1, hv, by rw [hdisk]; exact hl, h0⟩
  · apply h.finish_disk hplain hx hun
    rw [hop]
    exact exec_create_fails hv hc hcr (h.disk_eq.trans hdisk)
  · refine ⟨order, b, a, h.effect hplain.busy hun hplain.waits hplain.fills rfl
      (fun _ _ he => by cases he) fun op hat => ?_⟩
    rw [hp] at hat
    rw [hat.1, hdisk]
    exact opens_created hv hc hcr

theorem Sim.openTruncate {flags : BitVec 32} {inum : Int} {inode : Nat}
    (hp : s.place t = .openTruncate flags inum inode) (hun : s.unseen = none) :
    ∃ order' b' a', Sim s₀ (s.after t (advance s.fs (.openTruncate flags inum inode)))
      order' b' a' := by
  obtain ⟨hplain, x, hx, hat⟩ := h.at_plain hp ⟨by simp, rfl, rfl⟩
  have hdisk := h.seen hun
  obtain ⟨hfound, hi, ht⟩ := hat
  simp only [advance]
  split
  · rename_i hr
    apply h.finish_disk hplain hx hun
    rw [← hdisk] at hr ⊢
    exact hfound.exec_truncate_fails hi ht hr h.disk_eq
  · rename_i hr
    have hopens : ∀ op, AtPlace b op (s.place t) →
        Opens b.disk op ⟨inum, 0, hasFlag flags TFS_O_APPEND⟩ (truncateInode s.fs.disk inode).2 := by
      intro op hat
      rw [hp] at hat
      rw [← hdisk] at hr ⊢
      exact hat.1.opens_truncate hi ht hr
    split
    · rename_i ha
      rw [ha] at hopens
      refine ⟨order, b, a, h.effect hplain.busy hun hplain.waits hplain.fills ht
        (fun op _ => ⟨ha, fun hc => ?_⟩) hopens⟩
      rw [ht] at hc
      cases hc
    · rename_i ha
      rw [Bool.not_eq_true] at ha
      rw [ha] at hopens
      exact ⟨order, b, a, h.effect hplain.busy hun hplain.waits hplain.fills rfl
        (fun _ _ he => by cases he) hopens⟩

/-- The size is read without a lock: after a truncation it must be 0 still. -/
theorem Sim.openSize {flags : BitVec 32} {inum : Int} {inode : Nat}
    (hp : s.place t = .openSize flags inum inode) (hun : s.unseen = none ∨ s.unseen = some t)
    (hok : hasFlag flags TFS_O_TRUNC = true → (s.fs.disk.inode_table inode).i_size = 0) :
    ∃ order' b' a', Sim s₀ (s.after t (advance s.fs (.openSize flags inum inode))) order' b' a' := by
  have hbusy : s.place t ≠ .idle := by rw [hp]; simp
  have hf : (s.place t).fills = none := by rw [hp]; rfl
  have hwaits : (s.place t).waits = hasFlag flags TFS_O_TRUNC := by rw [hp]; rfl
  by_cases ht : hasFlag flags TFS_O_TRUNC = true
  · refine ⟨order, b, a, h.goOn hbusy hf rfl (hwaits.trans ht).symm (fun _ => ?_)
      (fun i hi => by cases hi) (fun _ _ he => by cases he)⟩
    rw [hp, hok ht]
    rfl
  · rw [Bool.not_eq_true] at ht
    rw [ht] at hwaits
    have hnone := hun.resolve_right (h.queue.not_waiting hwaits).2
    refine ⟨order, b, a, h.effect hbusy hnone hwaits hf rfl (fun _ _ he => by cases he)
      fun op hat => ?_⟩
    rw [hp] at hat
    obtain ⟨ha, hfound⟩ := hat
    obtain ⟨hfound, hi⟩ := hfound ht
    have hopens := hfound.opens_append hi ht ha
    rw [h.seen hnone] at hopens ⊢
    exact hopens

/-! ## The slot of an open -/

/-- An open that is not in the queue gives what the call gives alone. -/
theorem Sim.claim_opens {inum : Int} {offset : Nat} {isAppending effect : Bool}
    {x : Call Op Answer} (hp : s.place t = .openClaim inum offset isAppending effect)
    (hx : s.history.calls[s.callOf t]? = some x) (hat : AtPlace b x.op (s.place t))
    (ht : t ∉ s.waiting) : ∃ d, Opens b.disk x.op ⟨inum, offset, isAppending⟩ d ∧
      ((s.unseen = some t ∧ d = s.fs.disk) ∨ (s.unseen ≠ some t ∧ d = b.disk)) := by
  by_cases hun : s.unseen = some t
  · obtain ⟨y, hy, ho⟩ := h.unseen t hun
    cases hx.symm.trans hy
    rw [hp] at ho
    exact ⟨_, ho, Or.inl ⟨hun, rfl⟩⟩
  · have he : effect = false := by
      rw [← Bool.not_eq_true]
      intro he
      have hw : (s.place t).waits = true := by rw [hp, he]; rfl
      exact ((h.queue.waits t).mp hw).elim ht hun
    rw [hp] at hat
    obtain ⟨rfl, rfl, flags, inode, hfound, hi, htrunc, ha⟩ := hat he
    exact ⟨_, hfound.opens_plain hi htrunc ha, Or.inr ⟨hun, rfl⟩⟩

theorem Sim.openClaim {inum : Int} {offset : Nat} {isAppending effect : Bool}
    (hp : s.place t = .openClaim inum offset isAppending effect)
    (hok : s.waiting = [] ∨ s.waiting.head? = some t ∨
      ∀ i < MAX_OPEN_FILES, s.fs.free_open_file_entries i ≠ .FREE) :
    ∃ order' b' a', Sim s₀ (s.after t (advance s.fs (.openClaim inum offset isAppending effect)))
      order' b' a' := by
  have hbusy : s.place t ≠ .idle := by rw [hp]; simp
  have hf : (s.place t).fills = none := by rw [hp]; rfl
  have hentry : (s.place t).entry = ⟨inum, offset, isAppending⟩ := by rw [hp]; rfl
  obtain ⟨x, hx, hat⟩ := h.known hbusy
  rcases claimEntry_cases s.fs with ⟨hr, hfull⟩ | ⟨i, hi, hfree, hfirst, hr⟩ <;>
    simp only [advance, hr]
  · by_cases ht : t ∈ s.waiting
    · exact ⟨order, b, a, h.claim_waiting_fails ht hf hfull⟩
    · obtain ⟨d, ho, hd⟩ := h.claim_opens hp hx hat ht
      exact h.claim_fails hx hbusy ht hf ho hd hfull
  · rcases hok with hnone | hhead | hfull
    · obtain ⟨d, ho, hd⟩ := h.claim_opens hp hx hat (by rw [hnone]; simp)
      exact h.claim hx hbusy hnone hf ho hd hi hfree hfirst
    · obtain ⟨rest, hrest⟩ := List.head?_eq_some_iff.mp hhead
      exact ⟨order, _, a, h.claim_waiting hrest hentry hf hi hfree hfirst⟩
    · exact absurd hfree (hfull i hi)

theorem Sim.openFill {i : Nat} {e : OpenFileEntry} (hp : s.place t = .openFill i e) :
    ∃ order' b' a', Sim s₀ (s.after t (advance s.fs (.openFill i e))) order' b' a' :=
  ⟨order, b, a, h.fill hp⟩

end

end tecnicofs.parte1
