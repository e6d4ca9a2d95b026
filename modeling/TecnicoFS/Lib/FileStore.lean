-- A store of files as its callers see it: the names in the order of their
-- creation, the bytes of each file, and the open handles. Nothing is said of
-- how the bytes are kept.
import Mathlib.Data.List.Basic
import Mathlib.Data.List.Nodup
import Mathlib.Logic.Function.Basic

namespace file_store

/-- The bounds of a store. `sticky` says that a handle for appending stays one: it reads nothing,
and each of its writes goes to the end. Otherwise it only starts at the end. -/
structure Limits where
  maxFiles : Nat
  maxHandles : Nat
  maxSize : Nat
  sticky : Bool

/-- How a file is opened. -/
structure Mode where
  create : Bool
  truncate : Bool
  append : Bool
  deriving DecidableEq

structure Handle where
  file : Nat
  offset : Nat
  appends : Bool
  deriving DecidableEq

/-- File `k` has the `k`-th name and the `k`-th bytes. -/
structure Store (N B : Type) where
  names : List N
  bytes : Nat → List B
  handle : Nat → Option Handle

/-- A call. The name is none when no file can have it, and so is the slot of a handle. -/
inductive Call (N B : Type)
  | lookup (name : Option N)
  | openFile (name : Option N) (mode : Mode)
  | close (slot : Option Nat)
  | read (slot : Option Nat) (len : Nat)
  | write (slot : Option Nat) (bytes : List B)
  deriving DecidableEq

/-- What a call returns, or none when it fails, and the bytes it gives. -/
structure Reply (B : Type) where
  ret : Option Nat
  bytes : List B
  deriving DecidableEq

abbrev Reply.failed {B : Type} : Reply B := ⟨none, []⟩

abbrev Reply.number {B : Type} (n : Nat) : Reply B := ⟨some n, []⟩

/-- `bytes` with `new` in place of what stood from `o` on. -/
def overwrite {B : Type} (bytes : List B) (o : Nat) (new : List B) : List B :=
  bytes.take o ++ new ++ bytes.drop (o + new.length)

/-- A store without files. -/
def empty {N B : Type} : Store N B := ⟨[], fun _ => [], fun _ => none⟩

variable {N B : Type} (l : Limits) (st : Store N B)

def Store.find [DecidableEq N] (name : N) : Option Nat := st.names.findIdx? fun n => decide (n = name)

def Store.setBytes (k : Nat) (bytes : List B) : Store N B :=
  { st with bytes := Function.update st.bytes k bytes }

def Store.setHandle (i : Nat) (h : Option Handle) : Store N B :=
  { st with handle := Function.update st.handle i h }

/-- The first slot without a handle gets this one. -/
def Store.addHandle (h : Handle) : Reply B × Store N B :=
  match (List.range l.maxHandles).find? fun i => (st.handle i).isNone with
  | some i => (.number i, st.setHandle i (some h))
  | none => (.failed, st)

/-- Files are numbered from 1. -/
def Store.lookup [DecidableEq N] : Option N → Reply B × Store N B
  | none => (.failed, st)
  | some name =>
    match st.find name with
    | some k => (.number (k + 1), st)
    | none => (.failed, st)

/-- The store in which file `k` is empty, if the mode asks for it. -/
def Store.truncated (mode : Mode) (k : Nat) : Store N B :=
  if mode.truncate then st.setBytes k [] else st

/-- The handle that a file gets when it is opened. -/
def Store.startHandle (mode : Mode) (k : Nat) : Handle :=
  if mode.append then ⟨k, (st.bytes k).length, l.sticky⟩ else ⟨k, 0, false⟩

/-- The store with a new and empty file. -/
def Store.created (name : N) : Store N B :=
  { st with
    names := st.names ++ [name]
    bytes := Function.update st.bytes st.names.length [] }

/-- A handle for a file that is created is never for appending. -/
def Store.openFile [DecidableEq N] (name : Option N) (mode : Mode) : Reply B × Store N B :=
  match name with
  | none => (.failed, st)
  | some name =>
    match st.find name with
    | some k => (st.truncated mode k).addHandle l ((st.truncated mode k).startHandle l mode k)
    | none =>
      if mode.create = true ∧ st.names.length < l.maxFiles then
        (st.created name).addHandle l ⟨st.names.length, 0, false⟩
      else (.failed, st)

/-- The slot with its handle. -/
def Store.get (slot : Option Nat) : Option (Nat × Handle) :=
  slot.bind fun i => (st.handle i).map fun h => (i, h)

def Store.close (slot : Option Nat) : Reply B × Store N B :=
  match st.get slot with
  | none => (.failed, st)
  | some (i, _) => (.number 0, st.setHandle i none)

def Store.read (slot : Option Nat) (len : Nat) : Reply B × Store N B :=
  match st.get slot with
  | none => (.failed, st)
  | some (i, h) =>
    if h.appends then (.number 0, st)
    else
      let bytes := ((st.bytes h.file).drop h.offset).take len
      (⟨some bytes.length, bytes⟩,
        st.setHandle i (some { h with offset := h.offset + bytes.length }))

/-- Where the next write through the handle starts. -/
def Store.position (h : Handle) : Nat := if h.appends then (st.bytes h.file).length else h.offset

/-- What does not fit in the file is not written. -/
def Store.write (slot : Option Nat) (bytes : List B) : Reply B × Store N B :=
  match st.get slot with
  | none => (.failed, st)
  | some (i, h) =>
    let o := st.position h
    let bytes := bytes.take (l.maxSize - o)
    (.number bytes.length,
      (st.setBytes h.file (overwrite (st.bytes h.file) o bytes)).setHandle i
        (some { h with offset := o + bytes.length }))

def exec [DecidableEq N] : Call N B → Reply B × Store N B
  | .lookup name => st.lookup name
  | .openFile name mode => st.openFile l name mode
  | .close slot => st.close slot
  | .read slot len => st.read slot len
  | .write slot bytes => st.write l slot bytes

/-- The call does not truncate a file that somebody has open at an offset above zero. -/
def Spares [DecidableEq N] (st : Store N B) : Call N B → Prop
  | .openFile (some name) mode => mode.truncate = true → ∀ k, st.find name = some k →
      ∀ i h, st.handle i = some h → h.file = k → h.appends = true ∨ h.offset = 0
  | _ => True

/-! ## The parts of the calls -/

theorem get_eq_some {slot : Option Nat} {i : Nat} {h : Handle} :
    st.get slot = some (i, h) ↔ slot = some i ∧ st.handle i = some h := by
  unfold Store.get
  rw [Option.bind_eq_some_iff]
  constructor
  · rintro ⟨j, rfl, hj⟩
    obtain ⟨h', hh, he⟩ := Option.map_eq_some_iff.mp hj
    cases he
    exact ⟨rfl, hh⟩
  · rintro ⟨rfl, hh⟩
    exact ⟨i, rfl, by rw [hh]; rfl⟩

theorem addHandle_cases (h : Handle) :
    ((∀ i < l.maxHandles, (st.handle i).isSome = true) ∧ st.addHandle l h = (.failed, st)) ∨
      ∃ i < l.maxHandles, st.handle i = none ∧
        st.addHandle l h = (.number i, st.setHandle i (some h)) := by
  unfold Store.addHandle
  rcases hf : (List.range l.maxHandles).find? fun i => (st.handle i).isNone with _ | i
  · refine Or.inl ⟨fun i hi => ?_, rfl⟩
    simpa using List.find?_range_eq_none.mp hf i hi
  · obtain ⟨h1, h2, _⟩ := List.find?_range_eq_some.mp hf
    exact Or.inr ⟨i, List.mem_range.mp h2, by simpa using h1, rfl⟩

theorem find_eq_some [DecidableEq N] {name : N} {k : Nat} (h : st.find name = some k) :
    k < st.names.length ∧ st.names[k]? = some name := by
  obtain ⟨hk, he, _⟩ := List.findIdx?_eq_some_iff_getElem.mp h
  exact ⟨hk, by rw [List.getElem?_eq_getElem hk, decide_eq_true_eq.mp he]⟩

theorem find_eq_none [DecidableEq N] {name : N} : st.find name = none ↔ name ∉ st.names := by
  unfold Store.find
  rw [List.findIdx?_eq_none_iff]
  constructor
  · intro h hm
    simpa using h name hm
  · intro h n hn
    rw [decide_eq_false_iff_not]
    rintro rfl
    exact h hn

section
variable (bytes new : List B) (o : Nat)

theorem overwrite_nil : overwrite bytes o [] = bytes := by simp [overwrite]

theorem overwrite_length (ho : o ≤ bytes.length) :
    (overwrite bytes o new).length = max bytes.length (o + new.length) := by
  simp only [overwrite, List.length_append, List.length_take, List.length_drop]
  omega

/-- The new bytes stand where they were written, and the old ones elsewhere. -/
theorem overwrite_getElem? (ho : o ≤ bytes.length) (p : Nat) :
    (overwrite bytes o new)[p]? =
      if o ≤ p ∧ p < o + new.length then new[p - o]? else bytes[p]? := by
  unfold overwrite
  have hlen : (bytes.take o).length = o := List.length_take_of_le ho
  rcases Nat.lt_or_ge p o with hp | hp
  · rw [if_neg (by omega), List.append_assoc, List.getElem?_append_left (by omega),
      List.getElem?_take_of_lt hp]
  rcases Nat.lt_or_ge p (o + new.length) with hq | hq
  · rw [if_pos ⟨hp, hq⟩, List.append_assoc, List.getElem?_append_right (by omega), hlen,
      List.getElem?_append_left (by omega)]
  · rw [if_neg (by omega), List.getElem?_append_right (by simp only [List.length_append]; omega),
      List.getElem?_drop, List.length_append, hlen]
    congr 1
    omega

end

/-! ## What every store keeps -/

/-- The names differ, nothing is beyond its bound, and each handle is in its file. -/
structure Ok (l : Limits) (st : Store N B) : Prop where
  files_le : st.names.length ≤ l.maxFiles
  nodup : st.names.Nodup
  size_le : ∀ k, (st.bytes k).length ≤ l.maxSize
  unused : ∀ k, st.names.length ≤ k → st.bytes k = []
  slot : ∀ i h, st.handle i = some h → i < l.maxHandles
  file : ∀ i h, st.handle i = some h → h.file < st.names.length
  offset : ∀ i h, st.handle i = some h → h.appends = false →
    h.offset ≤ (st.bytes h.file).length
  mode : ∀ i h, st.handle i = some h → h.appends = true → l.sticky = true

theorem empty_ok : Ok l (empty : Store N B) where
  files_le := Nat.zero_le _
  nodup := List.nodup_nil
  size_le := fun _ => Nat.zero_le _
  unused := fun _ _ => rfl
  slot := fun _ _ h => by cases h
  file := fun _ _ h => by cases h
  offset := fun _ _ h => by cases h
  mode := fun _ _ h => by cases h

section
variable {l st} (hok : Ok l st)
include hok

theorem Ok.position_le {i : Nat} {h : Handle} (hi : st.handle i = some h) :
    st.position h ≤ (st.bytes h.file).length := by
  unfold Store.position
  split
  · exact Nat.le_refl _
  · rename_i happ
    exact hok.offset i h hi (by simpa using happ)

/-- A slot gets a handle that is in its file. -/
theorem Ok.setHandle {i : Nat} {h : Handle} (hi : i < l.maxHandles) (hf : h.file < st.names.length)
    (ho : h.appends = false → h.offset ≤ (st.bytes h.file).length)
    (hm : h.appends = true → l.sticky = true) : Ok l (st.setHandle i (some h)) := by
  have hcase : ∀ j g, (st.setHandle i (some h)).handle j = some g →
      j = i ∧ g = h ∨ st.handle j = some g := by
    intro j g hj
    unfold Store.setHandle at hj
    by_cases hji : j = i
    · subst hji
      simp only [Function.update_self, Option.some.injEq] at hj
      exact Or.inl ⟨rfl, hj.symm⟩
    · exact Or.inr (by simpa [Function.update_of_ne hji] using hj)
  refine ⟨hok.files_le, hok.nodup, hok.size_le, hok.unused, fun j g hj => ?_, fun j g hj => ?_,
    fun j g hj => ?_, fun j g hj => ?_⟩ <;> rcases hcase j g hj with ⟨rfl, rfl⟩ | hj
  · exact hi
  · exact hok.slot j g hj
  · exact hf
  · exact hok.file j g hj
  · exact ho
  · exact hok.offset j g hj
  · exact hm
  · exact hok.mode j g hj

theorem Ok.clearHandle (i : Nat) : Ok l (st.setHandle i none) := by
  have hcase : ∀ j g, (st.setHandle i none).handle j = some g → st.handle j = some g := by
    intro j g hj
    unfold Store.setHandle at hj
    by_cases hji : j = i
    · subst hji
      simp at hj
    · simpa [Function.update_of_ne hji] using hj
  exact ⟨hok.files_le, hok.nodup, hok.size_le, hok.unused, fun j g hj => hok.slot j g (hcase j g hj),
    fun j g hj => hok.file j g (hcase j g hj), fun j g hj => hok.offset j g (hcase j g hj),
    fun j g hj => hok.mode j g (hcase j g hj)⟩

/-- A file gets bytes that no handle is behind. -/
theorem Ok.setBytes {k : Nat} {bytes : List B} (hk : k < st.names.length)
    (hlen : bytes.length ≤ l.maxSize)
    (ho : ∀ i h, st.handle i = some h → h.file = k → h.appends = false → h.offset ≤ bytes.length) :
    Ok l (st.setBytes k bytes) where
  files_le := hok.files_le
  nodup := hok.nodup
  size_le := by
    intro j
    unfold Store.setBytes
    by_cases hj : j = k
    · subst hj
      simpa using hlen
    · simpa [Function.update_of_ne hj] using hok.size_le j
  unused := by
    intro j hj
    have hjk : j ≠ k := by
      rintro rfl
      exact absurd hk (Nat.not_lt.mpr hj)
    simpa [Store.setBytes, Function.update_of_ne hjk] using hok.unused j hj
  slot := hok.slot
  file := hok.file
  offset := by
    intro i h hi happ
    unfold Store.setBytes
    by_cases hf : h.file = k
    · simpa [hf] using ho i h hi hf happ
    · simpa [Function.update_of_ne hf] using hok.offset i h hi happ
  mode := hok.mode

theorem Ok.addHandle {h : Handle} (hf : h.file < st.names.length)
    (ho : h.appends = false → h.offset ≤ (st.bytes h.file).length)
    (hm : h.appends = true → l.sticky = true) : Ok l (st.addHandle l h).2 := by
  rcases addHandle_cases l st h with ⟨_, he⟩ | ⟨i, hi, _, he⟩ <;> rw [he]
  · exact hok
  · exact hok.setHandle hi hf ho hm

theorem Ok.created {name : N} (hnew : name ∉ st.names) (hroom : st.names.length < l.maxFiles) :
    Ok l (st.created name) := by
  have hsame : (st.created name).bytes = st.bytes := by
    unfold Store.created
    rw [← hok.unused _ (Nat.le_refl _), Function.update_eq_self]
  have hlen : (st.created name).names.length = st.names.length + 1 := by simp [Store.created]
  refine ⟨by omega, List.nodup_append.mpr ⟨hok.nodup, List.nodup_singleton _, ?_⟩, ?_, ?_, hok.slot,
    fun i h hi => ?_, ?_, hok.mode⟩
  · intro a ha b hb
    rw [List.mem_singleton] at hb
    rintro rfl
    exact hnew (hb ▸ ha)
  · rw [hsame]
    exact hok.size_le
  · intro k hk
    rw [hsame]
    exact hok.unused k (by omega)
  · have := hok.file i h hi
    omega
  · rw [hsame]
    exact hok.offset

theorem Ok.openFile [DecidableEq N] {name : Option N} {mode : Mode} (hs : Spares st (.openFile name mode)) :
    Ok l (st.openFile l name mode).2 := by
  unfold Store.openFile
  cases name with
  | none => exact hok
  | some name =>
    simp only
    rcases hfind : st.find name with _ | k
    · simp only
      split
      · rename_i hroom
        refine (hok.created ((find_eq_none st).mp hfind) hroom.2).addHandle ?_ (fun _ => Nat.zero_le _)
          (fun h => by cases h)
        simp [Store.created]
      · exact hok
    · obtain ⟨hk, _⟩ := find_eq_some st hfind
      have htrunc : Ok l (st.truncated mode k) := by
        unfold Store.truncated
        split
        · rename_i ht
          refine hok.setBytes hk (Nat.zero_le _) fun i h hi hf happ => ?_
          rcases hs ht k hfind i h hi hf with h1 | h1
          · rw [happ] at h1
            cases h1
          · rw [h1]
            exact Nat.zero_le _
        · exact hok
      have hk' : k < (st.truncated mode k).names.length := by
        unfold Store.truncated
        split <;> exact hk
      simp only
      unfold Store.startHandle
      split
      · exact htrunc.addHandle hk' (fun _ => Nat.le_refl _) fun h => h
      · exact htrunc.addHandle hk' (fun _ => Nat.zero_le _) fun h => by cases h

theorem Ok.close (slot : Option Nat) : Ok l (st.close slot).2 := by
  unfold Store.close
  split
  · exact hok
  · exact hok.clearHandle _

theorem Ok.read (slot : Option Nat) (len : Nat) : Ok l (st.read slot len).2 := by
  unfold Store.read
  rcases hget : st.get slot with _ | ⟨i, h⟩
  · exact hok
  · obtain ⟨_, hi⟩ := (get_eq_some st).mp hget
    simp only
    split
    · exact hok
    · rename_i happ
      have ho := hok.offset i h hi (by simpa using happ)
      refine hok.setHandle (hok.slot i h hi) (hok.file i h hi) (fun _ => ?_) (hok.mode i h hi)
      simp only [List.length_take, List.length_drop]
      omega

theorem Ok.write (slot : Option Nat) (bytes : List B) : Ok l (st.write l slot bytes).2 := by
  unfold Store.write
  rcases hget : st.get slot with _ | ⟨i, h⟩
  · exact hok
  · obtain ⟨_, hi⟩ := (get_eq_some st).mp hget
    have hpos := hok.position_le hi
    have hfile := hok.file i h hi
    have hlen := overwrite_length _ (bytes.take (l.maxSize - st.position h)) _ hpos
    have hsize := hok.size_le h.file
    have hnew : Ok l (st.setBytes h.file
        (overwrite (st.bytes h.file) (st.position h) (bytes.take (l.maxSize - st.position h)))) := by
      refine hok.setBytes hfile ?_ fun j g hj hg happ => ?_
      · rw [hlen, List.length_take]
        omega
      · have := hok.offset j g hj happ
        rw [hg] at this
        omega
    refine hnew.setHandle (hok.slot i h hi) hfile (fun _ => ?_) (hok.mode i h hi)
    simp only [Store.setBytes, Function.update_self]
    omega

/-- Every call keeps the laws of the store, if it truncates no file under an offset. -/
theorem Ok.exec [DecidableEq N] {c : Call N B} (hs : Spares st c) : Ok l (exec l st c).2 := by
  cases c with
  | lookup name =>
    cases name with
    | none => exact hok
    | some name =>
      simp only [file_store.exec, Store.lookup]
      split <;> exact hok
  | openFile name mode => exact hok.openFile hs
  | close slot => exact hok.close slot
  | read slot len => exact hok.read slot len
  | write slot bytes => exact hok.write slot bytes

end

/-! ## Stores with other bounds -/

/-- The call appends nothing, and writes nothing behind the bound of a file. -/
def Plain (l : Limits) (st : Store N B) : Call N B → Prop
  | .openFile _ mode => mode.append = false
  | .write slot bytes => ∀ i h, st.get slot = some (i, h) →
      st.position h + bytes.length ≤ l.maxSize
  | _ => True

section
variable {l st} {l' : Limits} (hfiles : l.maxFiles = l'.maxFiles)
  (hhandles : l.maxHandles = l'.maxHandles)
include hhandles

theorem addHandle_congr (st : Store N B) (h : Handle) : st.addHandle l h = st.addHandle l' h := by
  unfold Store.addHandle
  rw [hhandles]

include hfiles

/-- A call that does not get to the bounds does the same under larger ones. -/
theorem exec_congr [DecidableEq N] (hsize : l.maxSize ≤ l'.maxSize) {c : Call N B}
    (hp : Plain l st c) : exec l st c = exec l' st c := by
  cases c with
  | openFile name mode =>
    have happ : ∀ (t : Store N B) k, t.startHandle l mode k = t.startHandle l' mode k := by
      intro t k
      have hno : ¬ mode.append = true := by simpa [Plain] using hp
      unfold Store.startHandle
      rw [if_neg hno, if_neg hno]
    unfold exec Store.openFile
    simp only [hfiles, addHandle_congr hhandles, happ]
  | write slot bytes =>
    change st.write l slot bytes = st.write l' slot bytes
    unfold Store.write
    rcases hget : st.get slot with _ | ⟨i, h⟩
    · rfl
    · have hfits : st.position h + bytes.length ≤ l.maxSize := hp i h hget
      have hall : ∀ n, l.maxSize ≤ n → bytes.take (n - st.position h) = bytes :=
        fun n hn => List.take_of_length_le (by omega)
      simp only [hall _ (Nat.le_refl _), hall _ hsize]
  | lookup name => rfl
  | close slot => rfl
  | read slot len => rfl

end

end file_store
