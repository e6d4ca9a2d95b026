-- Threads that call the server's file system at the same time: each call answers
-- like the store of files at one moment between its begin and its end, and while
-- a call goes on some thread can take a step.
import TecnicoFS.Lib.Linearizability
import TecnicoFS.Parte2.GlobalLock
import TecnicoFS.Parte2.StoreRefinement

open linearizability file_store

namespace tecnicofs.parte2

/-! ## The history of the calls -/

/-- The threads and the history of their calls: the number of the last call of each thread, and
the bytes that its section has put in the buffer of the caller. -/
structure Recorded where
  threads : Threads
  history : History Op (Int × List UInt8)
  callOf : Nat → Nat
  buffer : Nat → List UInt8

/-- The bytes that the section of thread `t` gives. -/
def Threads.sectionBytes (w : Threads) (t : Nat) : List UInt8 :=
  match w.place t with
  | .inside op => ((exec w.state op).map fun r => r.1.bytes).getD []
  | _ => []

/-- What a step adds to the history. A call ends when it gives the lock back. -/
def Recorded.record (w : Recorded) : Action → Recorded
  | .call t op =>
    { w with
      history := w.history.call op
      callOf := Function.update w.callOf t w.history.calls.length }
  | .runSection t => { w with buffer := Function.update w.buffer t (w.threads.sectionBytes t) }
  | .unlock t =>
    match w.threads.place t with
    | .leaving ret => { w with history := w.history.ret (w.callOf t) (ret, w.buffer t) }
    | _ => w
  | _ => w

def recordedTurn (w : Recorded) (a : Action) : Option Recorded :=
  (turn w.threads a).map fun threads => { w.record a with threads }

/-- Before the first call. -/
def Threads.unrecorded (w : Threads) : Recorded := ⟨w, .first, fun _ => 0, fun _ => []⟩

/-! ## Careful sections -/

/-- What a section may do to the state that it finds. -/
def CarefulOn (s : State) : Op → Prop
  | .tfsOpen name flags => NameFits name flags ∧ ¬ TruncatesUnderOffset s (.tfsOpen name flags)
  | .tfsRead fhandle _ => OpenHandle s fhandle
  | .tfsWrite fhandle buffer => OpenHandle s fhandle ∧ buffer.length < 2 ^ 63
  | .tfsDestroyAfterAllClosed => False
  | _ => True

/-- The step is no section, or a careful one. -/
def CarefulSection (w : Recorded) : Action → Prop
  | .runSection t => ∀ op, w.threads.place t = .inside op → CarefulOn w.threads.state op
  | _ => True

theorem Shows.careful {s : State} {st : Store CString UInt8} (h : Shows s st) {op : Op}
    (hc : CarefulOn s op) : Careful st op := by
  have hopen : ∀ fhandle, OpenHandle s fhandle → (st.get fhandle.toNat?).isSome = true := by
    intro fhandle ho
    rw [Option.isSome_iff_ne_none]
    intro hnone
    exact (get_none_iff h.slot).mp hnone ho
  cases op with
  | tfsRead fhandle len => exact hopen fhandle hc
  | tfsWrite fhandle buffer => exact ⟨hopen fhandle hc.1, hc.2⟩
  | tfsDestroyAfterAllClosed => exact hc.elim
  | tfsOpen name flags =>
    obtain ⟨hname, hno⟩ := hc
    refine ⟨hname, ?_⟩
    have hlook := (h.lookup name).1
    unfold Store.lookup at hlook
    rcases hn : nameOf name with _ | n
    · trivial
    · intro htrunc k hk i e he hfile
      by_contra hbad
      rw [not_or, Bool.not_eq_true] at hbad
      obtain ⟨happ, hoff⟩ := hbad
      simp only [hn, hk, returned] at hlook
      have hget : st.get (i : Int).toNat? = some (i, e) := (get_eq_some st).mpr ⟨rfl, he⟩
      obtain ⟨_, _, hi, ht, _⟩ := get_shown h.slot hget
      obtain ⟨hlt, hnum, ho, _, hle⟩ := h.handle hget
      subst hfile
      refine hno ⟨htrunc, e.file + 1, hlook, ?_, i, hi, ht, hnum, ?_⟩
      · rw [h.files.size hlt]
        omega
      · omega
  | tfsLookup name => trivial
  | tfsClose fhandle => trivial

/-! ## The order of the sections -/

/-- A call on the store, with the answer that the caller sees. -/
def storeCall (st : Store CString UInt8) (op : Op) : (Int × List UInt8) × Store CString UInt8 :=
  ((returned (storeExec st op).1.ret, (storeExec st op).1.bytes), (storeExec st op).2)

/-- The calls in the order of their sections answer like the store, which is the one that the
state shows. -/
def StoreLinearizable (w : Recorded) : Prop :=
  ∃ order st, Linearization storeCall file_store.empty w.history.calls order st ∧
    Shows w.threads.state st

/-- While all sections are careful, a thread that is in a call is not stuck, or waits for one that
is not. -/
def CanGoOn (w : Recorded) : Prop :=
  (∀ a, CarefulSection w a) → ∀ t, w.threads.place t ≠ .outside →
    ∃ a w', recordedTurn w a = some w' ∧ ∀ u op, a ≠ .call u op

/-- The call of thread `t` has begun, and its place in the order is known behind its section. -/
def PlaceOk (w : Recorded) (order : List (Nat × (Int × List UInt8))) (t : Nat) : Place → Prop
  | .outside => True
  | .called op | .inside op => (∃ x ∈ w.history.calls[w.callOf t]?, x.op = op) ∧
      w.callOf t ∉ order.map Prod.fst
  | .leaving ret => (w.callOf t, (ret, w.buffer t)) ∈ order
  | _ => False

/-- The order of the sections that are over. -/
structure InOrder (w : Recorded) (order : List (Nat × (Int × List UInt8)))
    (st : Store CString UInt8) : Prop where
  lin : Linearizes storeCall file_store.empty w.history order st
  shows : Shows w.threads.state st
  exclusive : Exclusive w.threads
  place : ∀ t, PlaceOk w order t (w.threads.place t)
  apart : ∀ t u, t ≠ u → w.threads.place t ≠ .outside → w.threads.place u ≠ .outside →
    w.callOf t ≠ w.callOf u

section
variable {w : Recorded} {order : List (Nat × (Int × List UInt8))}

/-- A thread that does not step stays in order, when the calls and the order only grow. -/
theorem PlaceOk.other {w' : Recorded} {order' : List (Nat × (Int × List UInt8))} {u : Nat} {p : Place}
    (h : PlaceOk w order u p) (hcall : w'.callOf u = w.callOf u) (hbuf : w'.buffer u = w.buffer u)
    (hold : GoOn w.history w'.history)
    (hin : ∀ q ∈ order, q ∈ order') (hnew : ∀ q ∈ order', q ∈ order ∨ q.1 ≠ w.callOf u) :
    PlaceOk w' order' u p := by
  have hcalled : ∀ op, PlaceOk w order u (.called op) → PlaceOk w' order' u (.called op) := by
    rintro op ⟨⟨x, hx, hop⟩, hno⟩
    obtain ⟨x', hx', hop'⟩ := hold _ x hx
    refine ⟨⟨x', by rw [hcall]; exact hx', hop'.trans hop⟩, fun hc => ?_⟩
    rw [hcall] at hc
    obtain ⟨q, hq, hqc⟩ := List.mem_map.mp hc
    rcases hnew q hq with hq | hne
    · exact hno (hqc ▸ List.mem_map_of_mem hq)
    · exact hne hqc
  cases p with
  | outside => trivial
  | called op => exact hcalled op h
  | inside op => exact hcalled op h
  | leaving ret =>
    change (w'.callOf u, (ret, w'.buffer u)) ∈ order'
    rw [hcall, hbuf]
    exact hin _ h
  | waiting => exact h.elim
  | woken => exact h.elim
  | destroying => exact h.elim

/-- The call of a thread that is not outside has begun. -/
theorem PlaceOk.begun {s₀ st : Store CString UInt8} (hl : Linearizes storeCall s₀ w.history order st)
    {t : Nat} {p : Place} (h : PlaceOk w order t p) (hp : p ≠ .outside) :
    w.callOf t < w.history.calls.length := by
  cases p with
  | outside => exact absurd rfl hp
  | called op =>
    obtain ⟨⟨x, hx, _⟩, _⟩ := h
    exact (List.getElem?_eq_some_iff.mp hx).1
  | inside op =>
    obtain ⟨⟨x, hx, _⟩, _⟩ := h
    exact (List.getElem?_eq_some_iff.mp hx).1
  | leaving ret =>
    apply hl.lt_of_mem
    exact List.mem_map_of_mem (f := Prod.fst) h
  | waiting => exact h.elim
  | woken => exact h.elim
  | destroying => exact h.elim

variable {st : Store CString UInt8} (h : InOrder w order st)
include h

theorem InOrder.noShutdown (a : Action) : ¬ OpensInShutdown w.threads a := by
  have hrun := h.shows.running
  cases a with
  | runSection t =>
    rintro ⟨h0, _⟩
    omega
  | _ => exact id

/-- Thread `t` is at a new place with the same call. -/
theorem InOrder.moved {w' : Recorded} {order' : List (Nat × (Int × List UInt8))}
    {st' : Store CString UInt8} {t : Nat} {p : Place}
    (hl : Linearizes storeCall file_store.empty w'.history order' st')
    (hs : Shows w'.threads.state st') (he : Exclusive w'.threads)
    (hplace : w'.threads.place = Function.update w.threads.place t p)
    (hcall : w'.callOf = w.callOf) (hbuf : ∀ u, u ≠ t → w'.buffer u = w.buffer u)
    (hold : GoOn w.history w'.history)
    (hin : ∀ q ∈ order, q ∈ order') (hnew : ∀ q ∈ order', q ∈ order ∨ q.1 = w.callOf t)
    (ht : w.threads.place t ≠ .outside) (hp : PlaceOk w' order' t p) : InOrder w' order' st' := by
  have hinside : ∀ u, w'.threads.place u ≠ .outside → w.threads.place u ≠ .outside := by
    intro u hu
    by_cases hut : u = t
    · exact hut ▸ ht
    · rwa [hplace, Function.update_of_ne hut] at hu
  refine ⟨hl, hs, he, fun u => ?_, fun u v huv hu hv => ?_⟩
  · rw [hplace]
    by_cases hut : u = t
    · subst hut
      rwa [Function.update_self]
    · rw [Function.update_of_ne hut]
      by_cases hu : w.threads.place u = .outside
      · rw [hu]
        trivial
      · apply (h.place u).other (by rw [hcall]) (hbuf u hut) hold hin
        intro q hq
        rcases hnew q hq with hq | hq
        · exact Or.inl hq
        · exact Or.inr (hq ▸ h.apart t u (Ne.symm hut) ht hu)
  · rw [hcall]
    exact h.apart u v huv (hinside u hu) (hinside v hv)

theorem InOrder.call {t : Nat} {op : Op} {threads : Threads}
    (he : turn w.threads (.call t op) = some threads) :
    InOrder { w.record (.call t op) with threads } order st := by
  have hex := h.exclusive.turn (h.noShutdown _) he
  simp only [turn, Option.ite_none_right_eq_some, Option.some.injEq] at he
  obtain ⟨ht, rfl⟩ := he
  have hother : ∀ u, u ≠ t → w.threads.place u ≠ .outside →
      Function.update w.callOf t w.history.calls.length u = w.callOf u ∧
        w.callOf u < w.history.calls.length := by
    intro u hut hu
    exact ⟨Function.update_of_ne hut .., (h.place u).begun h.lin hu⟩
  refine ⟨h.lin.call op, h.shows, hex, fun u => ?_, fun u v huv hu hv => ?_⟩
  · simp only [Threads.move]
    by_cases hut : u = t
    · subst hut
      rw [Function.update_self]
      refine ⟨⟨⟨op, w.history.now, none⟩, ?_, rfl⟩, ?_⟩
      · simp only [Recorded.record, Function.update_self]
        exact w.history.call_last op
      · simp only [Recorded.record, Function.update_self]
        intro hc
        exact absurd (h.lin.lt_of_mem hc) (Nat.lt_irrefl _)
    · rw [Function.update_of_ne hut]
      apply (h.place u).other
      · exact Function.update_of_ne hut ..
      · rfl
      · exact GoOn.call w.history op
      · exact fun q hq => hq
      · exact fun q hq => Or.inl hq
  · simp only [Threads.move, Recorded.record] at hu hv ⊢
    by_cases hut : u = t <;> by_cases hvt : v = t
    · exact absurd (hut.trans hvt.symm) huv
    · subst hut
      rw [Function.update_of_ne hvt] at hv
      obtain ⟨hsame, hlt⟩ := hother v hvt hv
      rw [Function.update_self, hsame]
      omega
    · subst hvt
      rw [Function.update_of_ne hut] at hu
      obtain ⟨hsame, hlt⟩ := hother u hut hu
      rw [Function.update_self, hsame]
      omega
    · rw [Function.update_of_ne hut] at hu ⊢
      rw [Function.update_of_ne hvt] at hv ⊢
      exact h.apart u v huv hu hv

theorem InOrder.lock {t : Nat} {threads : Threads} (he : turn w.threads (.lock t) = some threads) :
    InOrder { w with threads } order st := by
  have hex := h.exclusive.turn (h.noShutdown _) he
  have hok := h.place t
  simp only [turn] at he
  split at he
  · cases he
  · split at he
    · rename_i op hop
      cases he
      rw [hop] at hok
      exact h.moved (t := t) h.lin h.shows hex rfl rfl (fun _ _ => rfl) (.refl _)
        (fun _ hq => hq) (fun _ hq => Or.inl hq) (by simp [hop]) hok
    · rename_i hop
      rw [hop] at hok
      exact hok.elim
    · cases he

/-- The section of a careful call is its moment. -/
theorem InOrder.runSection {t : Nat} {threads : Threads} (hc : CarefulSection w (.runSection t))
    (he : turn w.threads (.runSection t) = some threads) :
    ∃ order' st', InOrder { w.record (.runSection t) with threads } order' st' := by
  have hex := h.exclusive.turn (h.noShutdown _) he
  have hok := h.place t
  simp only [turn] at he
  split at he
  · rename_i op hop
    rw [hop] at hok
    obtain ⟨⟨x, hx, rfl⟩, hno⟩ := hok
    obtain ⟨r, hr, rfl⟩ := Option.map_eq_some_iff.mp he
    obtain ⟨r', s', hr', hshown, hshows⟩ := h.shows.exec (h.shows.careful (hc x.op hop))
    obtain rfl : r = (r', s') := Option.some.inj (hr.symm.trans hr')
    simp only [Answer.shown, shownReply, Prod.mk.injEq] at hshown
    obtain ⟨hret, hbytes, hexit⟩ := hshown
    have hgiven : w.threads.sectionBytes t = r'.bytes := by
      unfold Threads.sectionBytes
      rw [hop]
      simp only [hr, Option.map_some, Option.getD_some]
    have hleave : { w.threads with state := s' }.leave t r' =
        { w.threads with state := s' }.move t (.leaving r'.ret) := by
      unfold Threads.leave
      rw [hexit]
    rw [hleave] at hex ⊢
    refine ⟨order ++ [(w.callOf t, (storeCall st x.op).1)], (storeCall st x.op).2, ?_⟩
    refine h.moved (t := t) (p := .leaving r'.ret) (h.lin.point hx hno) hshows hex rfl rfl ?_
      (.refl _) ?_ ?_ ?_ ?_
    · intro u hut
      exact Function.update_of_ne hut ..
    · exact fun q hq => List.mem_append_left _ hq
    · intro q hq
      rcases List.mem_append.mp hq with hq | hq
      · exact Or.inl hq
      · exact Or.inr (congrArg Prod.fst (List.mem_singleton.mp hq))
    · simp [hop]
    · change (w.callOf t, (r'.ret, Function.update w.buffer t (w.threads.sectionBytes t) t)) ∈ _
      rw [Function.update_self, hgiven, hret, hbytes]
      exact List.mem_append_right _ (List.mem_singleton_self _)
  · cases he

theorem InOrder.unlock {t : Nat} {threads : Threads} (he : turn w.threads (.unlock t) = some threads) :
    InOrder { w.record (.unlock t) with threads } order st := by
  have hex := h.exclusive.turn (h.noShutdown _) he
  have hok := h.place t
  simp only [turn] at he
  split at he
  · rename_i ret hret
    cases he
    rw [hret] at hok
    have hrecord : w.record (.unlock t) =
        { w with history := w.history.ret (w.callOf t) (ret, w.buffer t) } := by
      simp only [Recorded.record, hret]
    rw [hrecord]
    refine h.moved (t := t) (p := .outside) (h.lin.ret hok) h.shows hex rfl rfl (fun _ _ => rfl)
      (.ret w.history _ _) ?_ ?_ ?_ ?_
    · exact fun _ hq => hq
    · exact fun _ hq => Or.inl hq
    · simp [hret]
    · trivial
  · cases he

theorem InOrder.step {a : Action} {w' : Recorded} (hc : CarefulSection w a)
    (he : recordedTurn w a = some w') : ∃ order' st', InOrder w' order' st' := by
  obtain ⟨threads, ht, rfl⟩ := Option.map_eq_some_iff.mp he
  cases a with
  | call t op => exact ⟨order, st, h.call ht⟩
  | lock t => exact ⟨order, st, h.lock ht⟩
  | runSection t => exact h.runSection hc ht
  | unlock t => exact ⟨order, st, h.unlock ht⟩
  | wake t =>
    have hok := h.place t
    simp only [turn, Option.ite_none_right_eq_some] at ht
    rw [ht.1] at hok
    exact hok.elim
  | destroy t =>
    have hok := h.place t
    simp only [turn, Option.ite_none_right_eq_some] at ht
    rw [ht.1] at hok
    exact hok.elim

/-- The owner of the lock goes on, and the next one enters when there is none. -/
theorem InOrder.canGoOn : CanGoOn w := by
  intro hc t ht
  -- it is enough that the threads can take the step
  have hstep : ∀ a, (turn w.threads a).isSome = true → (∀ u op, a ≠ .call u op) →
      ∃ a w', recordedTurn w a = some w' ∧ ∀ u op, a ≠ .call u op := by
    intro a he hno
    obtain ⟨threads, he⟩ := Option.isSome_iff_exists.mp he
    refine ⟨a, { w.record a with threads }, ?_, hno⟩
    unfold recordedTurn
    rw [he, Option.map_some]
  rcases hl : w.threads.single_global_lock with _ | u
  · have hno := h.exclusive.not_holds (u := t) (by simp [hl])
    have hok := h.place t
    rcases hp : w.threads.place t with _ | op | op | _ | _ | _ | ret <;> rw [hp] at hok hno
    · exact absurd hp ht
    · apply hstep (.lock t)
      · simp [turn, hl, hp]
      · exact fun _ _ he => by cases he
    · cases hno
    · exact hok.elim
    · exact hok.elim
    · exact hok.elim
    · cases hno
  · have hin := (h.exclusive u).mp hl
    have hok := h.place u
    rcases hp : w.threads.place u with _ | op | op | _ | _ | _ | ret <;> rw [hp] at hok hin
    · cases hin
    · cases hin
    · obtain ⟨r, s', hr, _⟩ := h.shows.exec (h.shows.careful (hc (.runSection u) op hp))
      apply hstep (.runSection u)
      · simp [turn, hp, hr]
      · exact fun _ _ he => by cases he
    · exact hok.elim
    · exact hok.elim
    · exact hok.elim
    · apply hstep (.unlock u)
      · simp [turn, hp]
      · exact fun _ _ he => by cases he

end

theorem Threads.Initial.inOrder {w : Threads} (hw : w.Initial) :
    InOrder w.unrecorded [] file_store.empty where
  lin := .first _
  shows := hw.state.shows
  exclusive := fun t => by simp [Threads.unrecorded, hw.lock_free, hw.outside t, Place.holds]
  place := fun t => by
    have hout : w.unrecorded.threads.place t = .outside := hw.outside t
    rw [hout]
    trivial
  apart := fun t _ _ ht => absurd (hw.outside t) ht

/-- In every state of every run of careful sections, by any number of threads, the calls answer
like the store in the order of their sections, the disk holds the files of the store, and a call
that has begun is not stuck. -/
theorem concurrent_calls_answer_like_the_store {w : Threads} (hw : w.Initial) {as : List Action}
    (hm : steps.Meets recordedTurn CarefulSection w.unrecorded as) :
    steps.Always recordedTurn (fun w => StoreLinearizable w ∧ CanGoOn w) w.unrecorded as := by
  have hall : steps.Always recordedTurn (fun w => ∃ order st, InOrder w order st) w.unrecorded as :=
    steps.always_of_meets (fun _ _ _ ⟨_, _, h⟩ hc he => h.step hc he) ⟨_, _, hw.inOrder⟩ hm
  exact hall.mono fun _ ⟨order, st, h⟩ => ⟨⟨order, st, h.lin.toLinearization, h.shows⟩, h.canGoOn⟩

/-- Thread 1 looks the file up while thread 0 is at the lock to create it. -/
theorem a_lookup_beside_an_open :
    steps.Always recordedTurn (fun w => StoreLinearizable w ∧ CanGoOn w) firstThreads.unrecorded
      [.call 0 (.tfsOpen (some pathA) TFS_O_CREAT), .call 1 (.tfsLookup (some pathA)), .lock 1,
        .runSection 1, .unlock 1, .lock 0, .runSection 0, .unlock 0] := by
  have hopen : ∀ s, CarefulOn s (.tfsOpen (some pathA) TFS_O_CREAT) := fun _ =>
    ⟨fun _ => ⟨pathA, rfl, by decide, by decide⟩, fun hc => absurd hc.1 (by decide)⟩
  apply concurrent_calls_answer_like_the_store firstThreads_initial
  apply steps.meets_cons rfl trivial
  apply steps.meets_cons rfl trivial
  apply steps.meets_cons rfl trivial
  apply steps.meets_cons rfl
  · intro op hop
    cases hop
    trivial
  apply steps.meets_cons rfl trivial
  apply steps.meets_cons rfl trivial
  refine fun _ _ => ⟨fun op hop => ?_, fun _ _ => ⟨trivial, trivial⟩⟩
  cases hop
  exact hopen _

end tecnicofs.parte2
