-- What the destination of a copy gets. The bytes go through a buffer and `fputs`, which
-- takes the buffer for a text: it stops at a NUL, and needs one.
import TecnicoFS.Parte1.Exports

open byte_memory

namespace tecnicofs.parte1

/-! ## The transfer buffer -/

/-- The transfer buffer after a read of this chunk. -/
def bufferOf (chunk : List UInt8) : List UInt8 :=
  if chunk.length < BUFFER_SIZE then chunk ++ [0] else chunk

/-- A NUL in the buffer ends what is written. -/
theorem fputs_length_le (chunk : List UInt8) :
    (fputs (bufferOf chunk)).1.length ≤ chunk.countP (· ≠ 0) := by
  have hcount : (bufferOf chunk).countP (· ≠ 0) = chunk.countP (· ≠ 0) := by
    unfold bufferOf
    split
    · rw [List.countP_append]
      rfl
    · rfl
  have hall : ((bufferOf chunk).takeWhile (· ≠ 0)).countP (· ≠ 0) =
      ((bufferOf chunk).takeWhile (· ≠ 0)).length :=
    List.countP_eq_length.mpr (List.all_eq_true.mp List.all_takeWhile)
  unfold fputs
  rw [← hcount, ← hall]
  exact (List.takeWhile_sublist _).countP_le

/-- A short chunk without a NUL is written as it is. -/
theorem fputs_short {chunk : List UInt8} (hlen : chunk.length < BUFFER_SIZE) (h0 : 0 ∉ chunk) :
    fputs (bufferOf chunk) = (chunk, false) := by
  unfold fputs bufferOf
  rw [if_pos hlen]
  refine Prod.ext ?_ ?_
  · simp only
    rw [List.takeWhile_append_of_pos]
    · simp
    · intro x hx
      simp only [ne_eq, decide_not, Bool.not_eq_eq_eq_not, Bool.not_true, decide_eq_false_iff_not]
      rintro rfl
      exact h0 hx
  · simp

/-- A full chunk without a NUL makes `fputs` run out of the buffer. -/
theorem fputs_full {chunk : List UInt8} (hlen : BUFFER_SIZE ≤ chunk.length) (h0 : 0 ∉ chunk) :
    (fputs (bufferOf chunk)).2 = true := by
  unfold fputs bufferOf
  rw [if_neg (by omega)]
  exact decide_eq_true h0

/-! ## The rounds of the loop -/

/-- A round with bytes left to read. -/
theorem At.copyLoop_round {s : State} {path : CString} {f n : Nat} {fhandle : Int}
    {bs : List UInt8} (h : At s path f fhandle bs n) (hn : n < bs.length) (rounds : Nat) :
    let chunk := (bs.drop n).take BUFFER_SIZE
    let rest := copyLoop fhandle rounds (tfsRead s fhandle BUFFER_SIZE).2
    copyLoop fhandle (rounds + 1) s =
        { rest with
          written := (fputs (bufferOf chunk)).1 ++ rest.written
          overread := (fputs (bufferOf chunk)).2 || rest.overread } ∧
      At (tfsRead s fhandle BUFFER_SIZE).2 path f fhandle bs (n + chunk.length) := by
  obtain ⟨hr, hnext⟩ := h.read hn.le BUFFER_SIZE
  have hlen : ((bs.drop n).take BUFFER_SIZE).length = min BUFFER_SIZE (bs.length - n) := by
    rw [List.length_take, List.length_drop]
  simp only
  rw [hlen]
  refine ⟨?_, hnext⟩
  rw [parte1.copyLoop_round rounds (by rw [hr]; unfold BUFFER_SIZE; omega)]
  simp only [hr, bufferOf, hlen, Int.ofNat_lt]

/-- The round at the end of the file. -/
theorem At.copyLoop_end {s : State} {path : CString} {f : Nat} {fhandle : Int} {bs : List UInt8}
    (h : At s path f fhandle bs bs.length) (rounds : Nat) :
    (copyLoop fhandle (rounds + 1) s).bytesRead = 0 ∧
      (copyLoop fhandle (rounds + 1) s).written = [] ∧
      (copyLoop fhandle (rounds + 1) s).overread = false := by
  obtain ⟨hr, _⟩ := h.read le_rfl BUFFER_SIZE
  have hzero : (tfsRead s fhandle BUFFER_SIZE).1.1 = 0 := by
    rw [hr]
    simp
  rw [copyLoop_last rounds (by omega)]
  exact ⟨hzero, rfl, rfl⟩

/-- Nothing but the bytes that are not NUL can get to the destination. -/
theorem At.copyLoop_written_le {s : State} {path : CString} {f n : Nat} {fhandle : Int}
    {bs : List UInt8} (h : At s path f fhandle bs n) (hn : n ≤ bs.length) (rounds : Nat) :
    (copyLoop fhandle rounds s).written.length ≤ (bs.drop n).countP (· ≠ 0) := by
  induction rounds generalizing s n with
  | zero => exact Nat.zero_le _
  | succ rounds ih =>
    rcases Nat.lt_or_eq_of_le hn with hlt | rfl
    · obtain ⟨hr, hnext⟩ := h.copyLoop_round hlt rounds
      have hrest := ih hnext (by rw [List.length_take, List.length_drop]; omega)
      have hchunk := fputs_length_le ((bs.drop n).take BUFFER_SIZE)
      have hsplit : (bs.drop n).take BUFFER_SIZE ++
          bs.drop (n + ((bs.drop n).take BUFFER_SIZE).length) = bs.drop n := by
        rw [← List.drop_drop, List.length_take, List.take_eq_take_min]
        exact List.take_append_drop _ _
      have hcount := congrArg (List.countP (· ≠ 0)) hsplit
      rw [List.countP_append] at hcount
      rw [hr, ← hcount, List.length_append]
      exact Nat.add_le_add hchunk hrest
    · rw [(h.copyLoop_end rounds).2.1]
      exact Nat.zero_le _

/-! ## The law -/

/-- The copy ends well, the destination holds these bytes and no others, and nothing behind the
transfer buffer was read. -/
def CopiesAll (s : State) (path : CString) (bs : List UInt8) : Prop :=
  let r := (tfsCopyToExternalFs s (some path) true).1
  r.ret = 0 ∧ r.dest = some bs ∧ r.overread = false

section
variable {s : State} (h : Inv s) {path : CString} {f : Nat} {bs : List UInt8}
  (hv : validPathname (some path) = true) (hl : tfsLookup s.disk path = f)
  (hb : Holds s.disk f bs) (hslot : ¬ NoSlot s)
include h hv hl hb hslot

/-- A copy of a file with all its blocks ends well, and its result is that of the loop. -/
theorem copiesAll_iff :
    ∃ i : Nat, ∃ t, At t path f i bs 0 ∧ (CopiesAll s path bs ↔
      (copyLoop i (MAX_FILE_SIZE + 1) t).written = bs ∧
        (copyLoop i (MAX_FILE_SIZE + 1) t).overread = false) := by
  rcases tfsOpen_copy h hv hl hb.file with ⟨hno, _⟩ | ⟨i, hi, hfree, ho⟩
  · exact absurd hno hslot
  have hat := ReadsAt.opened h hb.file hi
  have hsize := h.size_le f hb.file
  have hends := hat.copyLoop (Nat.zero_le _) (Nat.zero_le _)
    (show _ < 0 + (MAX_FILE_SIZE + 1) by simp only [withHandle]; omega)
  have hroom : ¬ room s.disk f < (s.disk.inode_table f).i_size := by
    have := hb.room_le
    rw [hb.size]
    omega
  have hneg := hends.not.mpr hroom
  refine ⟨i, withHandle s i ⟨f, 0, false⟩, ⟨hat.inv, hl, hb, i, hat.get, hat.entry⟩, ?_⟩
  unfold CopiesAll
  rw [tfsCopy_opened true hv hl ho]
  simp only [Bool.true_eq_false, if_false, hneg, Option.some.injEq, true_and]

/-- What is long or has a NUL in it does not get to the destination. -/
theorem copiesAll_short (hc : CopiesAll s path bs) : bs.length < BUFFER_SIZE ∧ 0 ∉ bs := by
  obtain ⟨i, t, hat, hiff⟩ := copiesAll_iff h hv hl hb hslot
  obtain ⟨hwritten, hover⟩ := hiff.mp hc
  have h0 : 0 ∉ bs := by
    have hle := hat.copyLoop_written_le (Nat.zero_le _) (MAX_FILE_SIZE + 1)
    rw [hwritten, List.drop_zero] at hle
    have hall := List.countP_eq_length.mp (Nat.le_antisymm List.countP_le_length hle)
    intro hmem
    exact absurd (hall 0 hmem) (by decide)
  refine ⟨?_, h0⟩
  by_contra hlong
  have hpos : 0 < bs.length := Nat.lt_of_lt_of_le (by decide) (Nat.le_of_not_lt hlong)
  obtain ⟨hr, _⟩ := hat.copyLoop_round hpos MAX_FILE_SIZE
  have hfull : (fputs (bufferOf ((bs.drop 0).take BUFFER_SIZE))).2 = true := by
    apply fputs_full
    · rw [List.length_take, List.length_drop]
      omega
    · exact fun hmem => h0 (List.mem_of_mem_take hmem)
  rw [hr] at hover
  simp only [hfull, Bool.true_or, Bool.true_eq_false] at hover

theorem copiesAll_of_short (hlen : bs.length < BUFFER_SIZE) (h0 : 0 ∉ bs) : CopiesAll s path bs := by
  obtain ⟨i, t, hat, hiff⟩ := copiesAll_iff h hv hl hb hslot
  apply hiff.mpr
  rcases Nat.eq_zero_or_pos bs.length with hnil | hpos
  · -- the first read finds the end
    obtain rfl := List.length_eq_zero_iff.mp hnil
    exact (hat.copyLoop_end MAX_FILE_SIZE).2
  · -- one read gives all bytes, the next one finds the end
    have hchunk : (bs.drop 0).take BUFFER_SIZE = bs := List.take_of_length_le hlen.le
    obtain ⟨hr, hnext⟩ := hat.copyLoop_round hpos MAX_FILE_SIZE
    rw [hchunk, fputs_short hlen h0] at hr
    rw [hchunk, Nat.zero_add] at hnext
    obtain ⟨_, hw, hov⟩ := hnext.copyLoop_end (MAX_FILE_SIZE - 1)
    rw [show MAX_FILE_SIZE - 1 + 1 = MAX_FILE_SIZE by decide] at hw hov
    rw [hr]
    simp only [hw, hov, List.append_nil, Bool.or_false, and_self]

end

/-- The destination gets the file exactly if the file is shorter than the transfer buffer and has
no NUL in it. -/
theorem a_copy_is_faithful_for_short_texts (s : State) (h : Reachable s) (path : CString) (f : Nat)
    (bs : List UInt8) (hv : validPathname (some path) = true) (hl : tfsLookup s.disk path = f)
    (hb : Holds s.disk f bs) (hslot : ¬ NoSlot s) :
    CopiesAll s path bs ↔ bs.length < BUFFER_SIZE ∧ 0 ∉ bs := by
  constructor
  · exact copiesAll_short h.inv hv hl hb hslot
  · rintro ⟨hlen, h0⟩
    exact copiesAll_of_short h.inv hv hl hb hslot hlen h0

theorem helloWritten_holds :
    tfsLookup helloWritten.disk pathF = (1 : Nat) ∧ Holds helloWritten.disk 1 hello := by
  have hfile : tfsLookup helloWritten.disk pathF = (1 : Nat) ∧ FileInode helloWritten.disk 1 ∧
      (helloWritten.disk.inode_table 1).i_size = 5 ∧ 5 ≤ room helloWritten.disk 1 ∧
      block_map.fileLoad BLOCK_SIZE (blocksOf helloWritten.disk 1) helloWritten.disk.fs_data 0 5 =
        hello := by
    decide +kernel
  obtain ⟨hl, hfile, hsize, hroom, hbytes⟩ := hfile
  exact ⟨hl, hfile, hsize, hroom, hbytes⟩

theorem the_copy_of_a_text_is_faithful : CopiesAll helloWritten pathF hello :=
  (a_copy_is_faithful_for_short_texts helloWritten helloWritten_reachable pathF 1 hello
    (by decide) helloWritten_holds.1 helloWritten_holds.2 (by decide +kernel)).mpr (by decide)

/-- `/f` holds one NUL. -/
def nulWritten : State :=
  (runs.run exec (tfsInit zeroed).2 [.tfsOpen (some pathF) TFS_O_CREAT, .tfsWrite 0 [0]]).2

theorem nulWritten_reachable : Reachable nulWritten := by
  rw [nulWritten]
  exact runs.Reachable.run (.start ⟨zeroed, rfl⟩) _

theorem nulWritten_holds :
    tfsLookup nulWritten.disk pathF = (1 : Nat) ∧ FileInode nulWritten.disk 1 ∧
      (nulWritten.disk.inode_table 1).i_size = 1 ∧ 1 ≤ room nulWritten.disk 1 ∧
      block_map.fileLoad BLOCK_SIZE (blocksOf nulWritten.disk 1) nulWritten.disk.fs_data 0 1 = [0] ∧
      ¬ NoSlot nulWritten := by
  decide +kernel

theorem a_copy_of_a_nul_is_empty :
    Reachable nulWritten ∧ validPathname (some pathF) = true ∧
      tfsLookup nulWritten.disk pathF = (1 : Nat) ∧ Holds nulWritten.disk 1 [0] ∧
      ¬ NoSlot nulWritten ∧ ¬ CopiesAll nulWritten pathF [0] := by
  have hreach := nulWritten_reachable
  obtain ⟨hl, hfile, hsize, hroom, hbytes, hslot⟩ := nulWritten_holds
  have hb : Holds nulWritten.disk 1 [0] := ⟨hfile, hsize, hroom, hbytes⟩
  refine ⟨hreach, by decide, hl, hb, hslot, fun hc => ?_⟩
  exact absurd (copiesAll_short hreach.inv (by decide) hl hb hslot hc).2 (by decide)

end tecnicofs.parte1
