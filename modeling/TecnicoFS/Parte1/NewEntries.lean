-- The directory between the steps of a creation: while its entry is filled, no other entry
-- changes, and at no moment do two live entries hold the same name.
import TecnicoFS.Parte1.Names

open byte_memory

namespace tecnicofs.parte1

/-- A name that an entry has room for. -/
def ShortPath (path : CString) : Prop := 1 ≤ path.skip.strlen ∧ path.skip.strlen ≤ 39

theorem ShortPath.length_lt {path : CString} (hs : ShortPath path) :
    path.skip.chars.length < MAX_FILE_NAME := by
  have := hs.2
  unfold CString.strlen at this
  unfold MAX_FILE_NAME
  omega

/-! ## Names that are found -/

/-- A string that is shorter than the comparison is found in terminated bytes only. -/
theorem nul_of_strncmpEq {l cs : List UInt8} {n : Nat} (hn : cs.length < n)
    (h : strncmpEq l (cs ++ [0]) n = true) : 0 ∈ l := by
  induction cs generalizing l n with
  | nil =>
    obtain ⟨n, rfl⟩ : ∃ k, n = k + 1 := ⟨n - 1, by omega⟩
    rcases l with _ | ⟨a, l⟩
    · cases h
    · simp only [List.nil_append, strncmpEq] at h
      split at h
      · cases h
      · rename_i ha
        rw [not_not.mp ha]
        exact List.mem_cons_self
  | cons c cs ih =>
    obtain ⟨n, rfl⟩ : ∃ k, n = k + 1 := ⟨n - 1, by omega⟩
    rcases l with _ | ⟨a, l⟩
    · cases h
    · simp only [List.cons_append, strncmpEq] at h
      split at h
      · cases h
      · split at h
        · rename_i ha
          rw [ha]
          exact List.mem_cons_self
        · refine List.mem_cons_of_mem _ (ih ?_ h)
          rw [List.length_cons] at hn
          omega

/-- Terminated or not, a live entry matches a short name exactly if it holds this name. -/
theorem entryMatches_iff {d : Disk} {k : Nat} (hk : Live d k) {path : CString}
    (hs : ShortPath path) :
    entryMatches d.fs_data (rootAddr d) path.skip k = true ↔ entryName d k = path.skip.chars := by
  have hlt := hs.length_lt
  by_cases h0 : 0 ∈ dName d.fs_data (rootAddr d) k
  · rw [entryMatches_of_terminated hk h0]
    exact eq_comm
  · refine iff_of_false (fun hm => h0 ?_) fun he => ?_
    · simp only [entryMatches, Bool.and_eq_true] at hm
      exact nul_of_strncmpEq hlt hm.2
    · -- the whole 40 bytes are longer than the name
      have hall : entryName d k = dName d.fs_data (rootAddr d) k := takeWhile_of_nul_free h0
      have hlen : (dName d.fs_data (rootAddr d) k).length = MAX_FILE_NAME := load_length ..
      rw [← hall, he] at hlen
      omega

/-- A live entry holds this name and this inode, which is a file. -/
def Known (d : Disk) (name : List UInt8) (inum : Int) : Prop :=
  ∃ k, Live d k ∧ entryName d k = name ∧ entryInode d k = inum ∧ ∃ f : Nat, inum = f ∧ FileInode d f

/-- What is known stays known. -/
def Grows (d d' : Disk) : Prop :=
  ∀ name inum, name.length < MAX_FILE_NAME → Known d name inum → Known d' name inum

theorem Grows.refl (d : Disk) : Grows d d := fun _ _ _ h => h

/-- The laws of the directory while a creation is under way: the entries in `ending` still wait for
their terminator. -/
structure Orderly (d : Disk) (ending : Nat → Prop) : Prop where
  root_taken : d.freeinode_ts ROOT_DIR_INUM = .TAKEN
  root_dir : (d.inode_table ROOT_DIR_INUM).i_node_type = .T_DIRECTORY
  root_block : dataBlockGet (rootBlock d) = some (rootAddr d)
  entry_file : ∀ k, Live d k → ∃ f : Nat, entryInode d k = f ∧ FileInode d f
  distinct : DistinctNames d
  terminated : ∀ k, Live d k → ¬ ending k → 0 ∈ dName d.fs_data (rootAddr d) k

theorem Orderly.mono {d : Disk} {ending ending' : Nat → Prop} (h : Orderly d ending)
    (he : ∀ k, ending k → ending' k) : Orderly d ending' :=
  { h with terminated := fun k hk hno => h.terminated k hk fun hend => hno (he k hend) }

/-- A name has one inode. -/
theorem Orderly.unique {d : Disk} {ending : Nat → Prop} (h : Orderly d ending) {name : List UInt8}
    {inum inum' : Int} (hk : Known d name inum) (hk' : Known d name inum') : inum = inum' := by
  obtain ⟨k, hl, hn, hi, _⟩ := hk
  obtain ⟨k', hl', hn', hi', _⟩ := hk'
  obtain rfl := h.distinct k k' hl hl' (hn.trans hn'.symm)
  exact hi.symm.trans hi'

/-- What matches in a scan is known. -/
theorem Orderly.known_of_match {d : Disk} {ending : Nat → Prop} (h : Orderly d ending)
    {path : CString} (hs : ShortPath path) {k : Nat} (hk : k < MAX_DIR_ENTRIES)
    (hm : entryMatches d.fs_data (rootAddr d) path.skip k = true) :
    Known d path.skip.chars (dInumber d.fs_data (rootAddr d) k) := by
  have hlive : Live d k := by
    simp only [entryMatches, Bool.and_eq_true, decide_eq_true_eq] at hm
    exact ⟨hk, hm.1⟩
  exact ⟨k, hlive, (entryMatches_iff hlive hs).mp hm, rfl, h.entry_file k hlive⟩

/-! ## Steps outside of the directory -/

/-- The directory stays, and so do the files that it lists. -/
theorem Orderly.of_dirSame {d d' : Disk} {ending : Nat → Prop} (h : Orderly d ending)
    (hd : DirSame d d') (htaken : d'.freeinode_ts ROOT_DIR_INUM = d.freeinode_ts ROOT_DIR_INUM)
    (htype : (d'.inode_table ROOT_DIR_INUM).i_node_type =
      (d.inode_table ROOT_DIR_INUM).i_node_type)
    (hfile : ∀ k (f : Nat), Live d k → entryInode d k = f → FileInode d f → FileInode d' f) :
    Orderly d' ending ∧ Grows d d' := by
  constructor
  · exact
      { root_taken := htaken.trans h.root_taken
        root_dir := htype.trans h.root_dir
        root_block := by
          rw [hd.block, hd.addr]
          exact h.root_block
        entry_file := fun k hk => by
          have hk' := hd.live.mp hk
          obtain ⟨f, hf, hff⟩ := h.entry_file k hk'
          exact ⟨f, (hd.inumber hk.1).trans hf, hfile k f hk' hf hff⟩
        distinct := h.distinct.same hd
        terminated := fun k hk hno => by
          rw [hd.dName hk.1]
          exact h.terminated k (hd.live.mp hk) hno }
  · rintro name inum _ ⟨k, hk, hn, hi, f, rfl, hf⟩
    exact ⟨k, hd.live.mpr hk, (hd.entryName hk.1).trans hn, (hd.inumber hk.1).trans hi, f, rfl,
      hfile k f hk hi hf⟩

/-- A file that no entry lists. -/
def Unlisted (d : Disk) (f : Nat) : Prop := FileInode d f ∧ ∀ k, Live d k → entryInode d k ≠ f

theorem freshFile_dirSame {d : Disk} {i : Nat} (hne : ROOT_DIR_INUM ≠ i) :
    DirSame d (freshFile d i) where
  block := by
    unfold rootBlock
    rw [freshFile_of_ne d hne]
  bytes := fun _ _ => rfl

/-- `inode_create` gives an inode that is not listed. -/
theorem Orderly.newInode {d : Disk} {ending : Nat → Prop} (h : Orderly d ending) {i : Nat}
    (hi : FreeInode d i) :
    Orderly (freshFile d i) ending ∧ Grows d (freshFile d i) ∧ Unlisted (freshFile d i) i := by
  have hne : ROOT_DIR_INUM ≠ i := by
    rintro rfl
    have := h.root_taken
    rw [hi.2] at this
    cases this
  have hd := freshFile_dirSame (d := d) hne
  have hroot : (freshFile d i).freeinode_ts ROOT_DIR_INUM = d.freeinode_ts ROOT_DIR_INUM :=
    Function.update_of_ne hne ..
  obtain ⟨horderly, hgrows⟩ := h.of_dirSame hd hroot (by rw [freshFile_of_ne d hne])
    fun k f _ _ hf => (freshFile_fileInode hi f).mpr (Or.inl hf)
  refine ⟨horderly, hgrows, (freshFile_fileInode hi i).mpr (Or.inr rfl), fun k hk he => ?_⟩
  obtain ⟨f, hf, hff⟩ := h.entry_file k (hd.live.mp hk)
  have hfi : (f : Int) = i := by
    rw [← hf, ← he]
    exact (hd.inumber hk.1).symm
  exact hi.not_file hff (by omega)

/-! ## Blocks that are freed -/

/-- Only the map of the free blocks changes. -/
def FreesOnly (d d' : Disk) : Prop := ∃ free_blocks, d' = { d with free_blocks }

theorem FreesOnly.refl (d : Disk) : FreesOnly d d := ⟨d.free_blocks, rfl⟩

theorem FreesOnly.trans {d d' d'' : Disk} (h : FreesOnly d d') (h' : FreesOnly d' d'') :
    FreesOnly d d'' := by
  obtain ⟨b, rfl⟩ := h
  obtain ⟨b', rfl⟩ := h'
  exact ⟨b', rfl⟩

theorem dataBlockFree_freesOnly (d : Disk) (b : Int) : FreesOnly d (dataBlockFree d b).2 := by
  unfold dataBlockFree
  split
  · exact ⟨_, rfl⟩
  · exact .refl d

theorem freeEach_freesOnly (d : Disk) (bs : List Int) : FreesOnly d (freeEach d bs).2 := by
  induction bs generalizing d with
  | nil => exact .refl d
  | cons b bs ih =>
    simp only [freeEach]
    split
    · exact dataBlockFree_freesOnly d b
    · exact (dataBlockFree_freesOnly d b).trans (ih _)

theorem deleteInodeDataBlocks_freesOnly (d : Disk) (inode : Nat) :
    FreesOnly d (deleteInodeDataBlocks d inode).2 := by
  have hindirect : ∀ j, FreesOnly d (freeIndirectBlocks d inode j).2 := by
    intro j
    unfold freeIndirectBlocks
    split
    · exact .refl d
    · have heach := freeEach_freesOnly d
      simp only
      split_ifs
      · exact heach _
      · exact (heach _).trans (dataBlockFree_freesOnly _ _)
      · exact (heach _).trans (dataBlockFree_freesOnly _ _)
  simp only [deleteInodeDataBlocks]
  by_cases hj : 10 < (d.inode_table inode).blocksAlloc
  · simp only [hj, if_true]
    split
    · exact hindirect _
    · exact (hindirect _).trans (freeEach_freesOnly _ _)
  · simp only [hj, if_false, zero_ne_neg_one]
    exact freeEach_freesOnly _ _

/-- A truncation keeps the directory and the inodes that are taken. -/
theorem truncateInode_same (d : Disk) (inode : Nat) :
    FilesSame d (truncateInode d inode).2 ∧ DirSame d (truncateInode d inode).2 := by
  obtain ⟨b, hb⟩ := deleteInodeDataBlocks_freesOnly d inode
  simp only [truncateInode]
  split_ifs
  · rw [hb]
    exact ⟨⟨rfl, fun _ => rfl⟩, rfl, fun _ _ => rfl⟩
  · rw [hb]
    have hsame : ∀ g, ({ d with free_blocks := b }.modInode inode fun i =>
        { i with i_size := 0, blocksAlloc := 0 }).inode_table g =
          { d.inode_table g with
            i_size := if g = inode then 0 else (d.inode_table g).i_size
            blocksAlloc := if g = inode then 0 else (d.inode_table g).blocksAlloc } := by
      intro g
      by_cases hg : g = inode
      · subst hg
        simp
      · simp [hg]
    refine ⟨⟨rfl, fun g => by rw [hsame]⟩, ?_, fun _ _ => rfl⟩
    unfold rootBlock
    rw [hsame]
  · exact ⟨⟨rfl, fun _ => rfl⟩, rfl, fun _ _ => rfl⟩

/-- `inode_delete` of a file that is not listed. -/
theorem Orderly.undo {d : Disk} {ending : Nat → Prop} (h : Orderly d ending) {f : Nat}
    (hf : Unlisted d f) :
    Orderly (inodeDelete d f).2 ending ∧ Grows d (inodeDelete d f).2 ∧
      rootAddr (inodeDelete d f).2 = rootAddr d := by
  obtain ⟨⟨hlt, htaken, htype⟩, hno⟩ := hf
  have hne : ROOT_DIR_INUM ≠ f := by
    rintro rfl
    rw [h.root_dir] at htype
    cases htype
  have hv : validInumber (f : Int) = true := by
    simp only [validInumber, decide_eq_true_eq]
    omega
  obtain ⟨b, hb⟩ := deleteInodeDataBlocks_freesOnly (d.setFreeinode f .FREE) f
  have hdel : ∃ free_blocks, (inodeDelete d f).2 = { d.setFreeinode f .FREE with free_blocks } := by
    unfold inodeDelete
    rw [if_neg (by simp [hv, htaken]), Int.toNat_natCast]
    simp only [hb]
    split_ifs
    · exact ⟨b, rfl⟩
    · exact ⟨b, rfl⟩
    · exact ⟨d.free_blocks, rfl⟩
  obtain ⟨b', hb'⟩ := hdel
  rw [hb', ← and_assoc]
  refine ⟨h.of_dirSame ⟨rfl, fun _ _ => rfl⟩ (Function.update_of_ne hne ..) rfl ?_, rfl⟩
  intro k g hk hg hgf
  have hgne : g ≠ f := by
    rintro rfl
    exact hno k hk hg
  exact ⟨hgf.1, (Function.update_of_ne hgne ..).trans hgf.2.1, hgf.2.2⟩

/-! ## The stores of a new entry -/

/-- The disk with other data in its blocks. -/
def withData (d : Disk) (fs_data : Memory) : Disk := { d with fs_data }

/-- No live entry but `j` holds the name. -/
def NameFree (d : Disk) (path : CString) (j : Nat → Prop) : Prop :=
  ∀ k, Live d k → ¬ j k → entryName d k ≠ path.skip.chars

/-- Entry `k` holds the copy of the name, whose last byte can be anything. -/
def Copied (d : Disk) (path : CString) (k : Nat) : Prop :=
  ∃ b, dName d.fs_data (rootAddr d) k = strncpy path.skip (MAX_FILE_NAME - 1) ++ [b]

/-- A short name that is copied and terminated is held as it is. -/
theorem takeWhile_copied {path : CString} (hs : ShortPath path) :
    (strncpy path.skip (MAX_FILE_NAME - 1) ++ [0]).takeWhile (· ≠ 0) = path.skip.chars := by
  rw [strncpy_short (n := MAX_FILE_NAME - 1) hs.2]
  exact takeWhile_nul path.skip.nul_free _

/-- Without its terminator, an entry holds the name, or 40 characters. -/
theorem Copied.entryName {d : Disk} {path : CString} {k : Nat} (h : Copied d path k)
    (hs : ShortPath path) :
    entryName d k = path.skip.chars ∨ (entryName d k).length = MAX_FILE_NAME := by
  obtain ⟨b, hb⟩ := h
  unfold parte1.entryName
  rw [hb]
  by_cases h0 : b = 0
  · rw [h0]
    exact Or.inl (takeWhile_copied hs)
  by_cases hz : 0 ∈ strncpy path.skip (MAX_FILE_NAME - 1)
  · -- the terminator of a name of fewer than 39 characters comes with the copy
    obtain ⟨hfree, _, xs, hx⟩ := split_at_nul hz
    have hcut : ∀ c, (strncpy path.skip (MAX_FILE_NAME - 1) ++ [c]).takeWhile (· ≠ 0) =
        (strncpy path.skip (MAX_FILE_NAME - 1)).takeWhile (· ≠ 0) := by
      intro c
      conv_lhs => rw [hx]
      rw [List.append_assoc]
      exact takeWhile_nul hfree _
    left
    rw [hcut, ← hcut 0]
    exact takeWhile_copied hs
  · right
    have hall : 0 ∉ strncpy path.skip (MAX_FILE_NAME - 1) ++ [b] := by
      simp only [List.mem_append, List.mem_singleton, not_or]
      exact ⟨hz, Ne.symm h0⟩
    rw [takeWhile_of_nul_free hall, List.length_append, strncpy_length]
    rfl

/-! ## One entry changes -/

/-- A store to the directory that leaves all entries but `k`. -/
structure OthersSame (d : Disk) (fs_data : Memory) (k : Nat) : Prop where
  inumber : ∀ j, j ≠ k → entryInode (withData d fs_data) j = entryInode d j
  name : ∀ j, j ≠ k → dName fs_data (rootAddr d) j = dName d.fs_data (rootAddr d) j

section
variable {d : Disk} {fs_data : Memory} {k : Nat} (ho : OthersSame d fs_data k)
include ho

theorem OthersSame.live {j : Nat} (hj : j ≠ k) : Live (withData d fs_data) j ↔ Live d j := by
  unfold Live
  rw [ho.inumber j hj]

theorem OthersSame.entryName {j : Nat} (hj : j ≠ k) :
    entryName (withData d fs_data) j = entryName d j := by
  have hname : dName (withData d fs_data).fs_data (rootAddr (withData d fs_data)) j =
      dName d.fs_data (rootAddr d) j := ho.name j hj
  unfold parte1.entryName
  rw [hname]

/-- What is known is not about `k`, or stays. -/
theorem OthersSame.grows
    (hself : Live d k → (parte1.entryName d k).length < MAX_FILE_NAME →
      Live (withData d fs_data) k ∧
        parte1.entryName (withData d fs_data) k = parte1.entryName d k ∧
          entryInode (withData d fs_data) k = entryInode d k) :
    Grows d (withData d fs_data) := by
  rintro name inum hlen ⟨j, hj, rfl, hi, hf⟩
  by_cases hjk : j = k
  · subst hjk
    obtain ⟨hl, hn, hi'⟩ := hself hj hlen
    exact ⟨j, hl, hn, hi'.trans hi, hf⟩
  · exact ⟨j, (ho.live hjk).mpr hj, ho.entryName hjk, (ho.inumber j hjk).trans hi, hf⟩

theorem OthersSame.nameFree {path : CString} {e e' : Nat → Prop} (hfree : NameFree d path e)
    (hself : Live (withData d fs_data) k → e' k) (he : ∀ j, e j → e' j) :
    NameFree (withData d fs_data) path e' := by
  intro j hj hno
  have hjk : j ≠ k := by
    rintro rfl
    exact hno (hself hj)
  rw [ho.entryName hjk]
  exact hfree j ((ho.live hjk).mp hj) fun h => hno (he j h)

/-- The laws stay if entry `k` is not live, or lists a file, under a name that nobody else holds,
and is terminated, or waits for it. -/
theorem Orderly.othersSame {ending ending' : Nat → Prop} (h : Orderly d ending)
    (hending : ∀ j, j ≠ k → ending j → ending' j)
    (hself : Live (withData d fs_data) k →
      (∃ f : Nat, entryInode (withData d fs_data) k = f ∧ FileInode d f) ∧
        (∀ j, Live d j → j ≠ k → entryName d j ≠ entryName (withData d fs_data) k) ∧
          (ending' k ∨ 0 ∈ dName fs_data (rootAddr d) k)) :
    Orderly (withData d fs_data) ending' where
  root_taken := h.root_taken
  root_dir := h.root_dir
  root_block := h.root_block
  entry_file := by
    intro j hj
    by_cases hjk : j = k
    · subst hjk
      exact (hself hj).1
    · rw [ho.inumber j hjk]
      exact h.entry_file j ((ho.live hjk).mp hj)
  distinct := by
    intro i j hi hj he
    by_contra hij
    by_cases hik : i = k
    · subst hik
      have hji : j ≠ i := Ne.symm hij
      rw [ho.entryName hji] at he
      exact (hself hi).2.1 j ((ho.live hji).mp hj) hji he.symm
    · rw [ho.entryName hik] at he
      by_cases hjk : j = k
      · subst hjk
        exact (hself hj).2.1 i ((ho.live hik).mp hi) hik he
      · rw [ho.entryName hjk] at he
        exact hij (h.distinct i j ((ho.live hik).mp hi) ((ho.live hjk).mp hj) he)
  terminated := by
    intro j hj hno
    by_cases hjk : j = k
    · subst hjk
      exact (hself hj).2.2.resolve_left hno
    · have hterm := h.terminated j ((ho.live hjk).mp hj) fun he => hno (hending j hjk he)
      rw [← ho.name j hjk] at hterm
      exact hterm

end

section
variable {d : Disk} {k : Nat} {path : CString}

/-- The copy of the name to an empty entry. -/
theorem Orderly.storeName {ending : Nat → Prop} (h : Orderly d ending) (path : CString)
    (hempty : entryInode d k = -1) :
    let d' := withData d (copyDName d.fs_data (rootAddr d) k path.skip)
    Orderly d' ending ∧ Grows d d' ∧ (∀ j, entryInode d' j = entryInode d j) ∧
      (∀ p e, NameFree d p e → NameFree d' p e) ∧ Copied d' path k := by
  intro d'
  have hinode : ∀ j, entryInode d' j = entryInode d j := fun j => dInumber_copy ..
  have ho : OthersSame d (copyDName d.fs_data (rootAddr d) k path.skip) k :=
    ⟨fun j _ => hinode j, fun j hj => dName_copy_of_ne _ _ _ _ _ hj⟩
  have hdead : ¬ Live d' k := fun hl => hl.2 ((hinode k).trans hempty)
  refine ⟨?_, ?_, hinode, fun p e hfree => ?_, dName_copy_self ..⟩
  · exact h.othersSame ho (fun _ _ he => he) fun hl => absurd hl hdead
  · exact ho.grows fun hl => absurd hempty hl.2
  · exact ho.nameFree hfree (fun hl => absurd hl hdead) fun _ he => he

/-- The store of the number makes the entry live, and its name is nobody else's. -/
theorem Orderly.storeInumber (h : Orderly d fun _ => False) (hs : ShortPath path)
    (hk : k < MAX_DIR_ENTRIES) (hempty : entryInode d k = -1) (hcopied : Copied d path k)
    (hfree : NameFree d path fun _ => False) {f : Nat} (hf : FileInode d f) :
    let d' := withData d (setDInumber d.fs_data (rootAddr d) k f)
    Orderly d' (fun j => j = k) ∧ Grows d d' ∧ Live d' k ∧ entryInode d' k = f ∧
      Copied d' path k ∧ NameFree d' path fun j => j = k := by
  intro d'
  have hlt : f < 50 := hf.1
  have hself : entryInode d' k = f := dInumber_set_self _ _ _ _ (by omega) (by omega)
  have hname : ∀ j, dName d'.fs_data (rootAddr d') j = dName d.fs_data (rootAddr d) j :=
    fun j => dName_set ..
  have ho : OthersSame d (setDInumber d.fs_data (rootAddr d) k f) k :=
    ⟨fun j hj => dInumber_set_of_ne _ _ _ _ _ hj, fun j _ => hname j⟩
  -- the other names are terminated, so they have fewer than 40 characters
  have hother : ∀ j, Live d j → j ≠ k → entryName d j ≠ entryName d' k := by
    intro j hj _ he
    have hcopied' : Copied d' path k := hcopied.imp fun b hb => (hname k).trans hb
    rcases hcopied'.entryName hs with hnew | hlong
    · exact hfree j hj id (he.trans hnew)
    · have hlen : (dName d.fs_data (rootAddr d) j).length = MAX_FILE_NAME := load_length ..
      have hshort := (split_at_nul (h.terminated j hj id)).2.1
      rw [hlen] at hshort
      rw [← he] at hlong
      exact absurd hlong hshort.ne
  refine ⟨?_, ?_, ⟨hk, by rw [hself]; omega⟩, hself, ?_, ?_⟩
  · exact h.othersSame ho (fun _ _ he => he.elim) fun _ => ⟨⟨f, hself, hf⟩, hother, Or.inl rfl⟩
  · exact ho.grows fun hl => absurd hempty hl.2
  · exact hcopied.imp fun b hb => (hname k).trans hb
  · exact ho.nameFree hfree (fun _ => rfl) fun _ he => he.elim

/-- The store of the terminator. -/
theorem Orderly.storeEnd (h : Orderly d fun j => j = k) (hs : ShortPath path) (hk : Live d k)
    (hcopied : Copied d path k) (hfree : NameFree d path fun j => j = k) :
    let d' := withData d (endDName d.fs_data (rootAddr d) k)
    (Orderly d' fun _ => False) ∧ Grows d d' ∧ Known d' path.skip.chars (entryInode d k) := by
  intro d'
  have hinode : ∀ j, entryInode d' j = entryInode d j := fun j => dInumber_end ..
  have ho : OthersSame d (endDName d.fs_data (rootAddr d) k) k :=
    ⟨fun j _ => hinode j, fun j hj => dName_end_of_ne _ _ _ _ hj⟩
  have hlive : Live d' k := ⟨hk.1, (hinode k).symm ▸ hk.2⟩
  have hname : dName d'.fs_data (rootAddr d') k = strncpy path.skip (MAX_FILE_NAME - 1) ++ [0] := by
    obtain ⟨b, hb⟩ := hcopied
    exact dName_end_self _ _ _ hb
  have hself : entryName d' k = path.skip.chars := by
    unfold entryName
    rw [hname]
    exact takeWhile_copied hs
  have hfile := h.entry_file k hk
  refine ⟨?_, ?_, k, hlive, hself, hinode k, hfile⟩
  · refine h.othersSame ho (fun _ hj he => hj he) fun _ => ⟨?_, fun j hj hjk => ?_, Or.inr ?_⟩
    · rw [hinode k]
      exact hfile
    · rw [hself]
      exact hfree j hj hjk
    · have hend : 0 ∈ dName d'.fs_data (rootAddr d') k := by
        rw [hname]
        exact List.mem_append_right _ (List.mem_singleton_self 0)
      exact hend
  · refine ho.grows fun _ hshort => ⟨hlive, ?_, hinode k⟩
    rcases hcopied.entryName hs with hnew | hlong
    · rw [hself, hnew]
    · exact absurd hlong hshort.ne

end

end tecnicofs.parte1
