/-
HedgeDB/PartitionFiles.lean

The files of the partitions and what `sst_manager::load` makes of them
(`src/db/sst_manager.cc`, `src/db/sst_manager_loader.cc`, `src/utils.cc`).

A partition is known by the largest prefix it holds.  Its SST files carry both
bytes of that id in their names, but the directory and with it the manifest are
named by the high byte alone.  Up to 256 partitions every directory belongs to one
partition; from exponent 9 on every directory is shared, the partitions write one
manifest, and each of them loads whatever was written last.

A load restores every level tree if and only if all trees are empty, or the exponent is
at most 8 and every manifest fits its page (`load_restores_partitions_iff`).
-/
import HedgeDB.Manifest
import Mathlib.Tactic.Ring

namespace HedgeDB

open List Function

variable {K : Type*}

/-! ### Partition ids and directories -/

/-- The partition ids that the constructor of `sst_manager` creates, in the order of
the map. -/
def partitionIds (numPartitionExponent : ℕ) : List ℕ :=
  let numPartitions := 2 ^ numPartitionExponent
  let partitionSize := 2 ^ 16 / numPartitions
  (range numPartitions).map fun i => ((i + 1) * partitionSize - 1) % 2 ^ 16

/-- The directory of a partition. -/
def dirName (p : ℕ) : String := (formatPrefix p).1

/-- The fields of `sst_manager::config` that the files depend on. -/
structure FilesConfig where
  numPartitionExponent : ℕ := 4
  maxNumLevels : ℕ := 40
  partitionsPath : String

/-- `partition_t`. -/
abbrev LevelTree (K : Type*) := List (List (Sst K))

/-- A directory: the page in the manifest file, if there is one, and the SST files. -/
structure Directory (K : Type*) where
  manifest : Option Text := none
  files : List (Sst K) := []

/-- What stands below `partitions_path`, by directory name. -/
abbrev PartitionsPath (K : Type*) := String → Option (Directory K)

/-! ### Persisting -/

/-- `_persist_partition_state` on its own: the manifest of the partition's directory
is replaced.  The file cannot be opened when the directory is missing. -/
def persistPartitionState (cfg : FilesConfig) (fs : PartitionsPath K) (p : ℕ)
    (levels : LevelTree K) : Expected (PartitionsPath K) :=
  if p ∉ partitionIds cfg.numPartitionExponent then .ok fs
  else
    match fs (dirName p) with
    | none => .error { msg := "Failed to open partition state file: " ++
        "Failed to open file descriptor No such file or directory" }
    | some dir => .ok (update fs (dirName p)
        (some { dir with manifest := some (serializeLevels Sst.filename levels) }))

/-- Calls one after the other, each with the levels of its partition at that time. -/
def persistAll (cfg : FilesConfig) :
    PartitionsPath K → List (ℕ × LevelTree K) → Expected (PartitionsPath K)
  | fs, [] => .ok fs
  | fs, call :: calls => do
      let fs ← persistPartitionState cfg fs call.1 call.2
      persistAll cfg fs calls

/-! ### Loading -/

/-- `sst::load` on a file of the directory. -/
def sstLoad (dirPath : String) (dir : Directory K) (fname : Text) : Expected (Sst K) :=
  match dir.files.find? fun sst => sst.filename = fname with
  | some sst => .ok sst
  | none => .error { msg := "sst::load: failed to open file: File does not exist: " ++
      dirPath ++ "/" ++ String.ofList fname }

/-- `std::stoull` on text that starts with a digit or does not parse. -/
def stoull (s : Text) : Expected ℕ :=
  match s.takeWhile Char.isDigit with
  | [] => .error { msg := "stoull" }
  | digits => .ok (digits.foldl (fun n c => 10 * n + (c.toNat - '0'.toNat)) 0)

/-- `flush_iteration_from_filename`: the number behind the last dot. -/
def flushIterationFromFilename (name : Text) : Expected ℕ :=
  if '.' ∈ name then stoull (name.reverse.takeWhile (· ≠ '.')).reverse
  else .error { msg := "basic_string::substr: __pos (which is 1) > this->size() (which is 0)" }

def maxFlushIteration : ℕ → List (Sst K) → Expected ℕ
  | n, [] => .ok n
  | n, sst :: ssts => do
      let it ← flushIterationFromFilename sst.filename
      maxFlushIteration (max n it) ssts

def stem (name : Text) : Text :=
  if '.' ∈ name then ((name.reverse.dropWhile (· ≠ '.')).drop 1).reverse else name

def manifestFilename : Text := "manifest".toList

/-- The names `directory_iterator` goes through. -/
def Directory.names (dir : Directory K) : List Text :=
  (if dir.manifest.isSome then [manifestFilename] else []) ++ dir.files.map Sst.filename

/-- The files that the levels do not name. -/
def orphans (dir : Directory K) (levels : LevelTree K) : List Text :=
  let trackedFilenames := levels.flatten.map Sst.filename
  dir.names.filter fun name => stem name ≠ manifestFilename ∧ name ∉ trackedFilenames

def checkOrphans (dirPath : String) (dir : Directory K) (levels : LevelTree K) : Expected Unit :=
  if orphans dir levels ≠ [] then
    .error { msg := "Orphan SST files detected in partition " ++ dirPath ++ ":" ++
      String.ofList ((orphans dir levels).flatMap fun name => ' ' :: name) }
  else .ok ()

/-- The part of `_load_partition` that reads the manifest: a manifest that does not
load leaves the levels as the constructor made them. -/
def loadLevels (cfg : FilesConfig) (dirPath : String) (dir : Directory K) (it : ℕ) :
    Expected (LevelTree K × ℕ) :=
  match dir.manifest with
  | none => .ok (replicate cfg.maxNumLevels [], it)
  | some page =>
      match parseManifestAndLoadSsts (sstLoad dirPath dir) cfg.maxNumLevels page with
      | .error _ => .ok (replicate cfg.maxNumLevels [], it)
      | .ok levels => (maxFlushIteration it levels.flatten).map fun it => (levels, it)

def loadPartition (cfg : FilesConfig) (fs : PartitionsPath K) (p it : ℕ) :
    Expected (LevelTree K × ℕ) :=
  let dirPath := cfg.partitionsPath ++ "/" ++ dirName p
  match fs (dirName p) with
  | none => .ok (replicate cfg.maxNumLevels [], it)
  | some dir =>
      match loadLevels cfg dirPath dir it with
      | .error e => .error e
      | .ok (levels, it) =>
          match checkOrphans dirPath dir levels with
          | .error e => .error { msg := "Error while checking orphans: " ++ e.msg }
          | .ok () => .ok (levels, it)

def loadPartitionsFrom (cfg : FilesConfig) (fs : PartitionsPath K) :
    List ℕ → ℕ → Expected (List (ℕ × LevelTree K) × ℕ)
  | [], it => .ok ([], it)
  | p :: ps, it =>
      match loadPartition cfg fs p it with
      | .error e =>
          .error { msg := "Error while loading prefix " ++ toString p ++ ": " ++ e.msg }
      | .ok (levels, it) => do
          let (rest, it) ← loadPartitionsFrom cfg fs ps it
          .ok ((p, levels) :: rest, it)

/-- What `load` sets up: the partitions and the next number for a file name. -/
structure LoadedManager (K : Type*) where
  sortedIndices : List (ℕ × LevelTree K)
  flushIteration : ℕ

/-- `sst_manager::load`; the path may not exist yet. -/
def sstManagerLoad (cfg : FilesConfig) (fs : Option (PartitionsPath K)) :
    Expected (LoadedManager K) :=
  let ids := partitionIds cfg.numPartitionExponent
  match fs with
  | none => .ok ⟨ids.map fun p => (p, replicate cfg.maxNumLevels []), 0⟩
  | some fs => do
      let (partitions, it) ← loadPartitionsFrom cfg fs ids 0
      .ok ⟨partitions, it + 1⟩

/-! ### Which partitions share a directory -/

section Directories

variable {e p q : ℕ}

theorem mem_partitionIds (he : e ≤ 16) :
    p ∈ partitionIds e ↔ ∃ i < 2 ^ e, p + 1 = (i + 1) * 2 ^ (16 - e) := by
  have hsize : 2 ^ 16 / 2 ^ e = 2 ^ (16 - e) := Nat.pow_div he (by decide)
  have hbound : ∀ i < 2 ^ e, 0 < (i + 1) * 2 ^ (16 - e) ∧ (i + 1) * 2 ^ (16 - e) ≤ 2 ^ 16 := by
    intro i hi
    refine ⟨Nat.mul_pos (Nat.succ_pos i) (Nat.two_pow_pos _), ?_⟩
    calc (i + 1) * 2 ^ (16 - e) ≤ 2 ^ e * 2 ^ (16 - e) := Nat.mul_le_mul_right _ hi
      _ = 2 ^ 16 := by rw [← pow_add, Nat.add_sub_cancel' he]
  simp only [partitionIds, hsize, mem_map, mem_range]
  constructor
  · rintro ⟨i, hi, rfl⟩
    have := hbound i hi
    exact ⟨i, hi, by rw [Nat.mod_eq_of_lt (by omega)]; omega⟩
  · rintro ⟨i, hi, hp⟩
    have := hbound i hi
    exact ⟨i, hi, by rw [Nat.mod_eq_of_lt (by omega)]; omega⟩

theorem lt_of_mem_partitionIds (hp : p ∈ partitionIds e) : p < 2 ^ 16 := by
  obtain ⟨i, -, rfl⟩ := mem_map.mp hp
  exact Nat.mod_lt _ (by decide)

theorem dirName_eq_iff (hp : p < 2 ^ 16) (hq : q < 2 ^ 16) :
    dirName p = dirName q ↔ p / 256 = q / 256 := by
  have hdigit : ∀ a < 16, ∀ b < 16, Nat.digitChar a = Nat.digitChar b → a = b := by decide
  constructor
  · intro h
    have hlist := String.ofList_injective h
    simp only [cons.injEq, and_true] at hlist
    have h₁ := hdigit _ (Nat.mod_lt _ (by decide)) _ (Nat.mod_lt _ (by decide)) hlist.1
    have h₂ := hdigit _ (Nat.mod_lt _ (by decide)) _ (Nat.mod_lt _ (by decide)) hlist.2
    omega
  · intro h
    simp only [dirName, formatPrefix, h]

theorem dirName_injOn (he : e ≤ 8) (hp : p ∈ partitionIds e) (hq : q ∈ partitionIds e)
    (h : dirName p = dirName q) : p = q := by
  have he' : e ≤ 16 := by omega
  rw [dirName_eq_iff (lt_of_mem_partitionIds hp) (lt_of_mem_partitionIds hq)] at h
  obtain ⟨i, -, hi⟩ := (mem_partitionIds he').mp hp
  obtain ⟨j, -, hj⟩ := (mem_partitionIds he').mp hq
  have hpow : 2 ^ (16 - e) = 2 ^ (8 - e) * 256 := by
    rw [show 256 = 2 ^ 8 by rfl, ← pow_add]
    congr 1
    omega
  rw [hpow, ← Nat.mul_assoc] at hi hj
  omega

theorem partition_highByte (he : 9 ≤ e) (he' : e ≤ 16) (i : ℕ) :
    ((i + 1) * 2 ^ (16 - e) - 1) / 256 = i / 2 / 2 ^ (e - 9) := by
  have hpow : 256 = (2 * 2 ^ (16 - e)) * 2 ^ (e - 9) := by
    rw [← pow_succ', ← pow_add, show 16 - e + 1 + (e - 9) = 8 by omega]
    rfl
  have hpos : 0 < 2 ^ (16 - e) := Nat.two_pow_pos _
  -- both end in the block number `i / 2` of twice the size
  have hblock : ((i + 1) * 2 ^ (16 - e) - 1) / (2 * 2 ^ (16 - e)) = i / 2 := by
    have hsplit : (i + 1) * 2 ^ (16 - e) =
        i / 2 * (2 * 2 ^ (16 - e)) + (i % 2 + 1) * 2 ^ (16 - e) := by
      conv_lhs => rw [← Nat.div_add_mod i 2]
      ring
    have hle : (i % 2 + 1) * 2 ^ (16 - e) ≤ 2 * 2 ^ (16 - e) :=
      Nat.mul_le_mul_right _ (by omega)
    have hge : 2 ^ (16 - e) ≤ (i % 2 + 1) * 2 ^ (16 - e) := Nat.le_mul_of_pos_left _ (by omega)
    refine Nat.div_eq_of_lt_le ?_ ?_
    · omega
    · rw [Nat.add_mul (i / 2) 1]
      omega
  rw [hpow, ← Nat.div_div_eq_div_mul, hblock]

theorem exists_shared_directory (he : 9 ≤ e) (he' : e ≤ 16) (hp : p ∈ partitionIds e) :
    ∃ q ∈ partitionIds e, q ≠ p ∧ dirName q = dirName p := by
  obtain ⟨i, hi, hpi⟩ := (mem_partitionIds he').mp hp
  have heven : 2 ^ e = 2 * 2 ^ (e - 1) := by
    rw [← pow_succ']
    congr 1
    omega
  obtain ⟨j, hj, hne, hhalf⟩ : ∃ j < 2 ^ e, j ≠ i ∧ j / 2 = i / 2 := by
    refine ⟨2 * (i / 2) + (1 - i % 2), ?_, ?_, ?_⟩ <;> omega
  have hpos : 0 < (j + 1) * 2 ^ (16 - e) := Nat.mul_pos (Nat.succ_pos j) (Nat.two_pow_pos _)
  have hq : (j + 1) * 2 ^ (16 - e) - 1 ∈ partitionIds e :=
    (mem_partitionIds he').mpr ⟨j, hj, by omega⟩
  have hp' : p = (i + 1) * 2 ^ (16 - e) - 1 := by omega
  refine ⟨_, hq, fun h => hne ?_, ?_⟩
  · have hmul : (j + 1) * 2 ^ (16 - e) = (i + 1) * 2 ^ (16 - e) := by omega
    exact Nat.succ.inj (Nat.eq_of_mul_eq_mul_right (Nat.two_pow_pos _) hmul)
  · rw [dirName_eq_iff (lt_of_mem_partitionIds hq) (lt_of_mem_partitionIds hp),
      partition_highByte he he', hp', partition_highByte he he', hhalf]

end Directories

/-! ### What a run of persists leaves -/

section Persist

variable {cfg : FilesConfig} {fs : PartitionsPath K}

def lastPersisted (calls : List (ℕ × LevelTree K)) (p : ℕ) : Option (LevelTree K) :=
  (calls.reverse.find? fun call => call.1 = p).map Prod.snd

def lastCall (calls : List (ℕ × LevelTree K)) (d : String) : Option (ℕ × LevelTree K) :=
  calls.reverse.find? fun call => dirName call.1 = d

variable {calls : List (ℕ × LevelTree K)}

theorem persistAll_eq (hids : ∀ call ∈ calls, call.1 ∈ partitionIds cfg.numPartitionExponent)
    (hdirs : ∀ call ∈ calls, (fs (dirName call.1)).isSome) :
    ∃ fs', persistAll cfg fs calls = .ok fs' ∧ ∀ d dir, fs d = some dir →
      fs' d = some { dir with
        manifest := ((lastCall calls d).map fun call =>
          serializeLevels Sst.filename call.2).or dir.manifest } := by
  induction calls generalizing fs with
  | nil => exact ⟨fs, rfl, fun d dir h => by simpa [lastCall] using h⟩
  | cons call calls ih =>
    obtain ⟨dir₀, hdir₀⟩ := Option.isSome_iff_exists.mp (hdirs call mem_cons_self)
    have hpersist : persistPartitionState cfg fs call.1 call.2 =
        .ok (update fs (dirName call.1)
          (some { dir₀ with manifest := some (serializeLevels Sst.filename call.2) })) := by
      rw [persistPartitionState, if_neg (not_not.mpr (hids call mem_cons_self)), hdir₀]
    obtain ⟨fs', hfs', hdir⟩ := @ih (update fs (dirName call.1)
        (some { dir₀ with manifest := some (serializeLevels Sst.filename call.2) }))
      (fun c hc => hids c (mem_cons_of_mem _ hc)) (fun c hc => by
        rw [update_apply]
        split
        · rfl
        · exact hdirs c (mem_cons_of_mem _ hc))
    refine ⟨fs', by rw [persistAll, hpersist]; exact hfs', fun d dir hd => ?_⟩
    have hlast : lastCall (call :: calls) d =
        (lastCall calls d).or (if dirName call.1 = d then some call else none) := by
      rw [lastCall, reverse_cons, find?_append, lastCall, find?_singleton]
      simp
    rw [hlast]
    by_cases hcall : dirName call.1 = d
    · subst hcall
      rw [hdir₀] at hd
      obtain rfl := Option.some.inj hd
      rw [hdir _ _ (update_self ..), if_pos rfl]
      rcases lastCall calls (dirName call.1) <;> rfl
    · rw [hdir d dir (by rw [update_of_ne (Ne.symm hcall), hd]), if_neg hcall]
      rcases lastCall calls d <;> rfl

theorem lastPersisted_of_lastCall {d : String} {call : ℕ × LevelTree K}
    (h : lastCall calls d = some call) :
    call ∈ calls ∧ dirName call.1 = d ∧ lastPersisted calls call.1 = some call.2 := by
  have hdir : dirName call.1 = d := by simpa using find?_some h
  refine ⟨mem_reverse.mp (mem_of_find?_eq_some h), hdir, ?_⟩
  obtain ⟨-, as, bs, hsplit, hnot⟩ := find?_eq_some_iff_append.mp h
  have hfind : (calls.reverse.find? fun c => c.1 = call.1) = some call := by
    refine find?_eq_some_iff_append.mpr ⟨by simp, as, bs, hsplit, fun a ha => ?_⟩
    have hne := hnot a ha
    simp only [Bool.not_eq_true', decide_eq_false_iff_not] at hne ⊢
    exact fun heq => hne (heq ▸ hdir)
  rw [lastPersisted, hfind]
  rfl

theorem lastCall_isSome {p : ℕ} (h : (lastPersisted calls p).isSome) :
    (lastCall calls (dirName p)).isSome := by
  rw [lastPersisted, Option.isSome_map, find?_isSome] at h
  obtain ⟨call, hcall, hp⟩ := h
  rw [lastCall, find?_isSome]
  exact ⟨call, hcall, by simpa using congrArg dirName (of_decide_eq_true hp)⟩

end Persist

/-! ### What a load finds -/

variable {tree : ℕ → LevelTree K} {it : ℕ}

section Load

variable {cfg : FilesConfig} {dirPath : String} {dir : Directory K} {levels : LevelTree K}

theorem sstLoad_eq {X : Sst K} (hX : X ∈ dir.files)
    (hunique : ∀ X ∈ dir.files, ∀ Y ∈ dir.files, X.filename = Y.filename → X = Y) :
    sstLoad dirPath dir X.filename = .ok X := by
  have hsome : (dir.files.find? fun Y => Y.filename = X.filename).isSome :=
    find?_isSome.mpr ⟨X, hX, by simp⟩
  obtain ⟨Y, hY⟩ := Option.isSome_iff_exists.mp hsome
  have hname : Y.filename = X.filename := by simpa using find?_some hY
  rw [sstLoad, hY, hunique Y (mem_of_find?_eq_some hY) X hX hname]

theorem takeWhile_reverse_name {id : Text} (stem : Text) (hid : ∀ c ∈ id, c.isDigit = true) :
    (stem ++ '.' :: id).reverse.takeWhile (· ≠ '.') = id.reverse ∧
      (stem ++ '.' :: id).reverse.dropWhile (· ≠ '.') = '.' :: stem.reverse := by
  have hdots : ∀ c ∈ id.reverse, decide (c ≠ '.') = true := by
    intro c hc
    have := hid c (mem_reverse.mp hc)
    exact decide_eq_true fun h => absurd (h ▸ this) (by decide)
  rw [reverse_append, reverse_cons, append_assoc,
    takeWhile_append_of_pos hdots, dropWhile_append_of_pos hdots]
  simp

theorem flushIterationFromFilename_eq (X : Sst K) :
    flushIterationFromFilename X.filename = .ok X.indexId := by
  obtain ⟨stem, id, hname, -, hne, hid, hvalue⟩ := generated_sstFileName X.upperBound X.indexId
  have hdigits : id.takeWhile Char.isDigit = id := by
    have h : (id ++ []).takeWhile Char.isDigit = id ++ [].takeWhile Char.isDigit :=
      takeWhile_append_of_pos hid
    rwa [append_nil, takeWhile_nil, append_nil] at h
  rw [Sst.filename, hname, flushIterationFromFilename, if_pos (by simp),
    (takeWhile_reverse_name stem hid).1, reverse_reverse, stoull, hdigits, ← hvalue]
  rcases id with - | ⟨c, id⟩
  · exact absurd rfl hne
  · rfl

theorem stem_filename_ne (X : Sst K) : stem X.filename ≠ manifestFilename := by
  obtain ⟨st, id, hname, hstem, -, hid⟩ := X.generatedName_filename
  rw [hname, stem, if_pos (by simp), (takeWhile_reverse_name st hid).2, drop_one, tail_cons,
    reverse_reverse]
  intro heq
  have hm : 'm' ∈ st := heq ▸ (by decide : 'm' ∈ manifestFilename)
  exact absurd (hstem 'm' hm) (by decide)

theorem maxFlushIteration_eq (n : ℕ) (ssts : List (Sst K)) :
    maxFlushIteration n ssts = .ok (ssts.foldl (fun it X => max it X.indexId) n) := by
  induction ssts generalizing n with
  | nil => rfl
  | cons X ssts ih =>
    rw [maxFlushIteration, flushIterationFromFilename_eq]
    exact ih (max n X.indexId)

theorem loadLevels_eq (dirPath : String) (it : ℕ) (hlen : levels.length = cfg.maxNumLevels)
    (hfiles : ∀ level ∈ levels, ∀ X ∈ level, X ∈ dir.files)
    (hunique : ∀ X ∈ dir.files, ∀ Y ∈ dir.files, X.filename = Y.filename → X = Y)
    (hmanifest : dir.manifest = some (serializeLevels Sst.filename levels)) :
    ∃ it', loadLevels cfg dirPath dir it =
      .ok (keptLevels Sst.filename pageSizeInBytes levels, it') := by
  have hparse : parseManifestAndLoadSsts (sstLoad dirPath dir) levels.length
      (serializeLevels Sst.filename levels) =
        .ok (keptLevels Sst.filename pageSizeInBytes levels) := by
    rw [parse_serializeLevels levels (fun _ _ X _ => X.generatedName_filename)
      (fun level hl X hX => sstLoad_eq (hfiles level hl X hX) hunique), map_id'']
    exact fun level => map_id' level
  rw [loadLevels, hmanifest]
  dsimp only
  rw [← hlen, hparse]
  dsimp only
  rw [maxFlushIteration_eq]
  exact ⟨_, rfl⟩

theorem checkOrphans_eq_ok_iff :
    checkOrphans dirPath dir levels = .ok () ↔
      ∀ X ∈ dir.files, stem X.filename ≠ manifestFilename →
        X.filename ∈ levels.flatten.map Sst.filename := by
  have horphans : orphans dir levels = [] ↔ ∀ X ∈ dir.files,
      stem X.filename ≠ manifestFilename → X.filename ∈ levels.flatten.map Sst.filename := by
    have hmanifest : stem manifestFilename = manifestFilename := by decide
    rw [orphans, filter_eq_nil_iff, Directory.names]
    constructor
    · intro h X hX hstem
      have := h X.filename (mem_append_right _ (mem_map_of_mem hX))
      simpa [hstem] using this
    · intro h name hname
      rcases mem_append.mp hname with hname | hname
      · split at hname
        · rw [mem_singleton.mp hname]
          simp [hmanifest]
        · exact absurd hname not_mem_nil
      · obtain ⟨X, hX, rfl⟩ := mem_map.mp hname
        by_cases hstem : stem X.filename = manifestFilename
        · simp [hstem]
        · have := h X hX hstem
          simpa [hstem] using this
  rw [checkOrphans, ← horphans]
  split
  · next h => exact ⟨fun h' => (nomatch h'), fun h' => absurd h' h⟩
  · next h => exact ⟨fun _ => not_not.mp h, fun _ => rfl⟩

theorem loadPartitionsFrom_of {fs : PartitionsPath K} {ps : List ℕ}
    (h : ∀ p ∈ ps, ∀ it, ∃ it', loadPartition cfg fs p it = .ok (tree p, it')) (it : ℕ) :
    ∃ it', loadPartitionsFrom cfg fs ps it = .ok (ps.map fun p => (p, tree p), it') := by
  induction ps generalizing it with
  | nil => exact ⟨it, rfl⟩
  | cons p ps ih =>
    obtain ⟨it₁, h₁⟩ := h p mem_cons_self it
    obtain ⟨it₂, h₂⟩ := ih (fun q hq => h q (mem_cons_of_mem _ hq)) it₁
    exact ⟨it₂, by rw [loadPartitionsFrom, h₁]; simp only [h₂]; rfl⟩

theorem loadPartition_of_loadPartitionsFrom {fs : PartitionsPath K} {ps : List ℕ} {it' : ℕ}
    (h : loadPartitionsFrom cfg fs ps it = .ok (ps.map fun p => (p, tree p), it')) :
    ∀ p ∈ ps, ∃ it it', loadPartition cfg fs p it = .ok (tree p, it') := by
  induction ps generalizing it it' with
  | nil => simp
  | cons p ps ih =>
    rw [loadPartitionsFrom] at h
    rcases hp : loadPartition cfg fs p it with e | ⟨levels, it₁⟩
    · rw [hp] at h
      exact nomatch h
    · rw [hp] at h
      rcases hps : loadPartitionsFrom cfg fs ps it₁ with e | ⟨rest, it₂⟩
      · simp only [hps] at h
        exact nomatch h
      · simp only [hps] at h
        have h' := Except.ok.inj h
        simp only [Prod.mk.injEq, map_cons, cons.injEq, true_and] at h'
        obtain ⟨⟨hlevels, hrest⟩, -⟩ := h'
        intro q hq
        rcases mem_cons.mp hq with rfl | hq
        · exact ⟨it, it₁, by rw [hp, hlevels]⟩
        · exact ih (hrest ▸ hps) q hq

end Load

/-! ### What a load restores -/

section Restore

variable {cfg : FilesConfig} {tree : ℕ → LevelTree K} {fs fs' : PartitionsPath K}
  {calls : List (ℕ × LevelTree K)} {p q : ℕ}

/-- A directory holds exactly the files of the trees of its partitions. -/
structure HoldsTrees (cfg : FilesConfig) (tree : ℕ → LevelTree K) (d : String)
    (dir : Directory K) : Prop where
  mem_files : ∀ X, X ∈ dir.files ↔ ∃ q ∈ partitionIds cfg.numPartitionExponent,
    dirName q = d ∧ ∃ level ∈ tree q, X ∈ level
  unique : ∀ X ∈ dir.files, ∀ Y ∈ dir.files, X.filename = Y.filename → X = Y

/-- Level trees of the manager's partitions, and their files on disk. -/
structure TreesOnDisk (cfg : FilesConfig) (tree : ℕ → LevelTree K) (fs : PartitionsPath K) :
    Prop where
  depth : ∀ p ∈ partitionIds cfg.numPartitionExponent, (tree p).length = cfg.maxNumLevels
  owner : ∀ p ∈ partitionIds cfg.numPartitionExponent, ∀ level ∈ tree p, ∀ X ∈ level,
    X.upperBound = p
  files : ∀ p ∈ partitionIds cfg.numPartitionExponent,
    ∃ dir, fs (dirName p) = some dir ∧ HoldsTrees cfg tree (dirName p) dir

/-- Calls on the manager's partitions that end with each one persisted as it is. -/
structure PersistedLast (cfg : FilesConfig) (tree : ℕ → LevelTree K)
    (calls : List (ℕ × LevelTree K)) : Prop where
  ids : ∀ call ∈ calls, call.1 ∈ partitionIds cfg.numPartitionExponent
  last : ∀ p ∈ partitionIds cfg.numPartitionExponent, lastPersisted calls p = some (tree p)

/-- The manifest of `d` is that of partition `q`. -/
structure WrittenBy (cfg : FilesConfig) (tree : ℕ → LevelTree K) (fs : PartitionsPath K)
    (d : String) (q : ℕ) : Prop where
  mem : q ∈ partitionIds cfg.numPartitionExponent
  dir : dirName q = d
  page : ∃ dir, fs d = some dir ∧ HoldsTrees cfg tree d dir ∧
    dir.manifest = some (serializeLevels Sst.filename (tree q))

theorem persistAll_writtenBy (hdisk : TreesOnDisk cfg tree fs)
    (hcalls : PersistedLast cfg tree calls) :
    ∃ fs', persistAll cfg fs calls = .ok fs' ∧
      ∀ p ∈ partitionIds cfg.numPartitionExponent, ∃ q, WrittenBy cfg tree fs' (dirName p) q := by
  obtain ⟨fs', hfs', hdirs⟩ := persistAll_eq hcalls.ids fun call hcall => by
    obtain ⟨dir, hdir, -⟩ := hdisk.files call.1 (hcalls.ids call hcall)
    exact Option.isSome_iff_exists.mpr ⟨dir, hdir⟩
  refine ⟨fs', hfs', fun p hp => ?_⟩
  obtain ⟨dir, hdir, hholds⟩ := hdisk.files p hp
  obtain ⟨call, hcall⟩ := Option.isSome_iff_exists.mp
    (lastCall_isSome (Option.isSome_iff_exists.mpr ⟨_, hcalls.last p hp⟩))
  obtain ⟨hin, hdirName, hlast⟩ := lastPersisted_of_lastCall hcall
  have hq := hcalls.ids call hin
  have htree : call.2 = tree call.1 := Option.some.inj (hlast.symm.trans (hcalls.last _ hq))
  refine ⟨call.1, hq, hdirName, _, hdirs (dirName p) dir hdir, ⟨hholds.1, hholds.2⟩, ?_⟩
  rw [hcall, Option.map_some, Option.some_or, htree]

/-- **What one partition loads**: the tree of the partition that wrote the manifest, as
far as it fits. -/
theorem loadPartition_kept (hdepth : (tree q).length = cfg.maxNumLevels)
    (hw : WrittenBy cfg tree fs (dirName p) q) {it' : ℕ} {levels : LevelTree K}
    (h : loadPartition cfg fs p it = .ok (levels, it')) :
    levels = keptLevels Sst.filename pageSizeInBytes (tree q) := by
  obtain ⟨dir, hdir, hholds, hmanifest⟩ := hw.page
  obtain ⟨it₁, h₁⟩ := loadLevels_eq (cfg.partitionsPath ++ "/" ++ dirName p) it hdepth
    (fun level hl X hX => (hholds.mem_files X).mpr ⟨q, hw.mem, hw.dir, level, hl, hX⟩)
    hholds.unique hmanifest
  rw [loadPartition, hdir] at h
  simp only [h₁] at h
  split at h
  · exact nomatch h
  · exact (congrArg Prod.fst (Except.ok.inj h)).symm

theorem loadPartition_ok (hdepth : (tree q).length = cfg.maxNumLevels)
    (hw : WrittenBy cfg tree fs (dirName p) q)
    (hall : ∀ r ∈ partitionIds cfg.numPartitionExponent, dirName r = dirName p →
      ∀ level ∈ tree r, ∀ X ∈ level,
        X ∈ (keptLevels Sst.filename pageSizeInBytes (tree q)).flatten) (it : ℕ) :
    ∃ it', loadPartition cfg fs p it =
      .ok (keptLevels Sst.filename pageSizeInBytes (tree q), it') := by
  obtain ⟨dir, hdir, hholds, hmanifest⟩ := hw.page
  obtain ⟨it₁, h₁⟩ := loadLevels_eq (cfg.partitionsPath ++ "/" ++ dirName p) it hdepth
    (fun level hl X hX => (hholds.mem_files X).mpr ⟨q, hw.mem, hw.dir, level, hl, hX⟩)
    hholds.unique hmanifest
  have hcheck : checkOrphans (cfg.partitionsPath ++ "/" ++ dirName p) dir
      (keptLevels Sst.filename pageSizeInBytes (tree q)) = .ok () := by
    refine checkOrphans_eq_ok_iff.mpr fun X hX _ => ?_
    obtain ⟨r, hr, hrp, level, hlevel, hX'⟩ := (hholds.mem_files X).mp hX
    exact mem_map_of_mem (hall r hr hrp level hlevel X hX')
  refine ⟨it₁, ?_⟩
  rw [loadPartition, hdir]
  simp only [h₁, hcheck]

theorem loadPartition_of_restored (h : sstManagerLoad cfg (some fs) =
      .ok ⟨(partitionIds cfg.numPartitionExponent).map fun p => (p, tree p), it⟩) :
    ∀ p ∈ partitionIds cfg.numPartitionExponent,
      ∃ it it', loadPartition cfg fs p it = .ok (tree p, it') := by
  rw [sstManagerLoad] at h
  rcases hps : loadPartitionsFrom cfg fs (partitionIds cfg.numPartitionExponent) 0
    with e | ⟨partitions, it₁⟩
  · simp only [hps] at h
    exact nomatch h
  · simp only [hps] at h
    have hparts := congrArg LoadedManager.sortedIndices (Except.ok.inj h)
    dsimp only at hparts
    rw [hparts] at hps
    exact loadPartition_of_loadPartitionsFrom hps

/-- If every tree is restored, all are empty or no directory is shared and every
manifest fits. -/
theorem fits_of_restored (he : cfg.numPartitionExponent ≤ 16) (hdisk : TreesOnDisk cfg tree fs)
    (hwritten : ∀ p ∈ partitionIds cfg.numPartitionExponent,
      ∃ q, WrittenBy cfg tree fs' (dirName p) q)
    (hload : ∀ p ∈ partitionIds cfg.numPartitionExponent,
      ∃ it it', loadPartition cfg fs' p it = .ok (tree p, it')) :
    (∀ p ∈ partitionIds cfg.numPartitionExponent, ∀ level ∈ tree p, level = []) ∨
      cfg.numPartitionExponent ≤ 8 ∧
        ∀ p ∈ partitionIds cfg.numPartitionExponent, ManifestFits Sst.filename (tree p) := by
  have hkept : ∀ p ∈ partitionIds cfg.numPartitionExponent, ∀ {q},
      WrittenBy cfg tree fs' (dirName p) q →
        tree p = keptLevels Sst.filename pageSizeInBytes (tree q) := by
    intro p hp q hq
    obtain ⟨it, it', h⟩ := hload p hp
    exact loadPartition_kept (hdisk.depth q hq.mem) hq h
  by_cases hexp : cfg.numPartitionExponent ≤ 8
  · refine .inr ⟨hexp, fun p hp => ?_⟩
    obtain ⟨q, hq⟩ := hwritten p hp
    have heq := hkept p hp hq
    rw [dirName_injOn hexp hq.mem hp hq.dir] at heq
    refine (keptLevels_eq_iff id (fun _ h => h) _ _).mp ?_
    rw [map_id, map_id, ← heq]
  · refine .inl fun p hp level hlevel => eq_nil_iff_forall_not_mem.mpr fun X hX => ?_
    -- another partition of the directory loads the same tree
    obtain ⟨r, hr, hne, hdir⟩ := exists_shared_directory (by omega) he hp
    obtain ⟨q, hq⟩ := hwritten p hp
    have hsame : tree p = tree r := (hkept p hp hq).trans (hkept r hr (hdir ▸ hq)).symm
    exact hne ((hdisk.owner r hr level (hsame ▸ hlevel) X hX).symm.trans
      (hdisk.owner p hp level hlevel X hX))

/-- If all trees are empty, or no directory is shared and every manifest fits, every
tree is restored. -/
theorem restored_of_fits (hdisk : TreesOnDisk cfg tree fs)
    (hwritten : ∀ p ∈ partitionIds cfg.numPartitionExponent,
      ∃ q, WrittenBy cfg tree fs' (dirName p) q)
    (h : (∀ p ∈ partitionIds cfg.numPartitionExponent, ∀ level ∈ tree p, level = []) ∨
      cfg.numPartitionExponent ≤ 8 ∧
        ∀ p ∈ partitionIds cfg.numPartitionExponent, ManifestFits Sst.filename (tree p)) :
    ∀ p ∈ partitionIds cfg.numPartitionExponent, ∀ it,
      ∃ it', loadPartition cfg fs' p it = .ok (tree p, it') := by
  intro p hp it
  obtain ⟨q, hq⟩ := hwritten p hp
  have hkeeps : ManifestFits Sst.filename (tree q) →
      keptLevels Sst.filename pageSizeInBytes (tree q) = tree q := by
    intro hfits
    have := (keptLevels_eq_iff id (fun _ h => h) _ _).mpr hfits
    rwa [map_id, map_id] at this
  rcases h with hempty | ⟨hexp, hfits⟩
  · have hreplicate : ∀ r ∈ partitionIds cfg.numPartitionExponent,
        tree r = replicate cfg.maxNumLevels [] := fun r hr =>
      eq_replicate_iff.mpr ⟨hdisk.depth r hr, hempty r hr⟩
    have hfits : ManifestFits Sst.filename (tree q) := by
      intro i hi hne
      rw [getElem?_eq_getElem hi, hempty q hq.mem _ (getElem_mem hi)] at hne
      exact absurd rfl hne
    have := loadPartition_ok (hdisk.depth q hq.mem) hq (fun r hr _ level hlevel X hX => by
      rw [hempty r hr level hlevel] at hX
      exact absurd hX not_mem_nil) it
    rwa [hkeeps hfits, hreplicate q hq.mem, ← hreplicate p hp] at this
  · obtain rfl := dirName_injOn hexp hq.mem hp hq.dir
    have hkeep := hkeeps (hfits q hp)
    have := loadPartition_ok (hdisk.depth q hp) hq (fun r hr hdir level hlevel X hX => by
      rw [hkeep]
      obtain rfl := dirName_injOn hexp hr hp hdir
      exact mem_flatten.mpr ⟨level, hlevel, hX⟩) it
    rwa [hkeep] at this

/-- **Partitions and their recovery state, exactly.**  After any calls that leave
every partition persisted as it is, a load restores every level tree and reports no
orphan if and only if all trees are empty, or there are at most 256 partitions and
every manifest fits its page. -/
theorem load_restores_partitions_iff (cfg : FilesConfig) (he : cfg.numPartitionExponent ≤ 16)
    (tree : ℕ → LevelTree K) (fs : PartitionsPath K) (hdisk : TreesOnDisk cfg tree fs)
    (calls : List (ℕ × LevelTree K)) (hcalls : PersistedLast cfg tree calls) :
    (∃ fs' it, persistAll cfg fs calls = .ok fs' ∧ sstManagerLoad cfg (some fs') =
        .ok ⟨(partitionIds cfg.numPartitionExponent).map fun p => (p, tree p), it⟩) ↔
      (∀ p ∈ partitionIds cfg.numPartitionExponent, ∀ level ∈ tree p, level = []) ∨
        cfg.numPartitionExponent ≤ 8 ∧
          ∀ p ∈ partitionIds cfg.numPartitionExponent, ManifestFits Sst.filename (tree p) := by
  obtain ⟨fs', hfs', hwritten⟩ := persistAll_writtenBy hdisk hcalls
  constructor
  · rintro ⟨fs₁, it, hfs₁, hload⟩
    obtain rfl := Except.ok.inj (hfs'.symm.trans hfs₁)
    exact fits_of_restored he hdisk hwritten (loadPartition_of_restored hload)
  · intro h
    obtain ⟨it, hit⟩ := loadPartitionsFrom_of (restored_of_fits hdisk hwritten h) 0
    refine ⟨fs', it + 1, hfs', ?_⟩
    rw [sstManagerLoad]
    simp only [hit]
    rfl

end Restore

/-! ### Examples -/

theorem lastPersisted_map {ids : List ℕ} {p : ℕ} (hp : p ∈ ids) :
    lastPersisted (ids.map fun p => (p, tree p)) p = some (tree p) := by
  have hsome : ((ids.map fun p => (p, tree p)).reverse.find? fun call => call.1 = p).isSome :=
    find?_isSome.mpr
      ⟨(p, tree p), mem_reverse.mpr (mem_map.mpr ⟨p, hp, rfl⟩), by simp⟩
  obtain ⟨call, hcall⟩ := Option.isSome_iff_exists.mp hsome
  have hfst : call.1 = p := by simpa using find?_some hcall
  obtain ⟨q, -, rfl⟩ := mem_map.mp (mem_reverse.mp (mem_of_find?_eq_some hcall))
  rw [lastPersisted, hcall, ← hfst]
  rfl

/-- An SST of a partition. -/
def exampleFile (upperBound indexId : ℕ) : Sst ℕ :=
  { id := indexId, indexId, epoch := indexId, upperBound, maxSeqNr := 0, entries := [] }

/-- Two partitions, each with its own directory. -/
theorem load_restores_two_partitions :
    let cfg : FilesConfig := { numPartitionExponent := 1, maxNumLevels := 2, partitionsPath := "p" }
    let tree : ℕ → LevelTree ℕ := fun p =>
      if p = 32767 then [[exampleFile p 1], []] else [[], [exampleFile p 1]]
    let fs : PartitionsPath ℕ := fun d =>
      some { files := if d = "7f" then [exampleFile 32767 1] else [exampleFile 65535 1] }
    let calls := [(65535, tree 65535), (32767, [[], []]), (32767, tree 32767)]
    ∃ fs' it, persistAll cfg fs calls = .ok fs' ∧ sstManagerLoad cfg (some fs') =
      .ok ⟨[(32767, tree 32767), (65535, tree 65535)], it⟩ := by
  intro cfg tree fs calls
  have hids : partitionIds cfg.numPartitionExponent = [32767, 65535] := by decide
  have hdir₁ : dirName 32767 = "7f" := by decide
  have hdir₂ : dirName 65535 = "ff" := by decide
  have hdisk : TreesOnDisk cfg tree fs := by
    refine ⟨?_, ?_, ?_⟩ <;> rw [hids]
    · decide
    · simp [tree, exampleFile]
    · intro p hp
      refine ⟨_, rfl, ?_, ?_⟩
      · rw [hids]
        rcases mem_pair.mp hp with rfl | rfl <;> simp [hdir₁, hdir₂, tree]
      · rcases mem_pair.mp hp with rfl | rfl <;> simp [hdir₁, hdir₂]
  have hcalls : PersistedLast cfg tree calls := by
    refine ⟨?_, ?_⟩ <;> rw [hids]
    · simp [calls]
    · simp [calls, lastPersisted]
  have hfits : ∀ p ∈ partitionIds cfg.numPartitionExponent, ManifestFits Sst.filename (tree p) := by
    rw [hids]
    decide +kernel
  have h := (load_restores_partitions_iff cfg (by decide) tree fs hdisk calls hcalls).mpr
    (.inr ⟨by decide, hfits⟩)
  rwa [hids] at h

/-- With 512 partitions the partitions 127 and 255 share the directory `00`.  After
all are persisted in the order of their ids the manifest there is the empty one of
255, and the SST of 127 is not restored. -/
theorem load_mixes_shared_partitions :
    let cfg : FilesConfig := { numPartitionExponent := 9, maxNumLevels := 1, partitionsPath := "p" }
    let tree : ℕ → LevelTree ℕ := fun p => if p = 127 then [[exampleFile 127 1]] else [[]]
    let fs : PartitionsPath ℕ := fun d =>
      some { files := if d = "00" then [exampleFile 127 1] else [] }
    let calls := (partitionIds 9).map fun p => (p, tree p)
    TreesOnDisk cfg tree fs ∧ PersistedLast cfg tree calls ∧
      ¬ ∃ fs' it, persistAll cfg fs calls = .ok fs' ∧ sstManagerLoad cfg (some fs') =
        .ok ⟨(partitionIds 9).map fun p => (p, tree p), it⟩ := by
  intro cfg tree fs calls
  have hmem : 127 ∈ partitionIds 9 := (mem_partitionIds (by decide)).mpr ⟨0, by decide, by decide⟩
  have hdir : dirName 127 = "00" := by decide
  have htree : ∀ q, ∀ level ∈ tree q, ∀ X ∈ level, q = 127 ∧ X = exampleFile 127 1 := by
    intro q level hlevel X hX
    by_cases hq : q = 127
    · simp only [tree, hq, if_true, mem_singleton] at hlevel
      rw [hlevel] at hX
      exact ⟨hq, mem_singleton.mp hX⟩
    · simp only [tree, hq, if_false, mem_singleton] at hlevel
      rw [hlevel] at hX
      exact absurd hX not_mem_nil
  have hdisk : TreesOnDisk cfg tree fs := by
    refine ⟨fun p _ => ?_, fun p _ level hlevel X hX => ?_, fun p _ => ⟨_, rfl, ?_, ?_⟩⟩
    · show (if p = 127 then _ else _ : LevelTree ℕ).length = 1
      split <;> rfl
    · obtain ⟨rfl, rfl⟩ := htree p level hlevel X hX
      rfl
    · intro X
      constructor
      · intro hX
        dsimp only at hX
        split at hX
        · next h =>
          exact ⟨127, hmem, hdir.trans h.symm, _, mem_singleton_self _, hX⟩
        · exact absurd hX not_mem_nil
      · rintro ⟨q, -, hq, level, hlevel, hX⟩
        obtain ⟨rfl, rfl⟩ := htree q level hlevel X hX
        dsimp only
        rw [← hq, if_pos hdir]
        exact mem_singleton_self _
    · intro X hX Y hY _
      dsimp only at hX hY
      split at hX
      · next h =>
        rw [if_pos h] at hY
        rw [mem_singleton.mp hX, mem_singleton.mp hY]
      · exact absurd hX not_mem_nil
  have hcalls : PersistedLast cfg tree calls := by
    refine ⟨fun call hcall => ?_, fun p hp => lastPersisted_map hp⟩
    obtain ⟨p, hp, rfl⟩ := mem_map.mp hcall
    exact hp
  refine ⟨hdisk, hcalls, ?_⟩
  rintro ⟨fs₁, it, hfs₁, hload⟩
  obtain ⟨fs', hfs', hwritten⟩ := persistAll_writtenBy hdisk hcalls
  obtain rfl := Except.ok.inj (hfs'.symm.trans hfs₁)
  have h := fits_of_restored (show 9 ≤ 16 by decide) hdisk hwritten
    (loadPartition_of_restored hload)
  rcases h with hempty | ⟨hexp, -⟩
  · exact absurd (hempty 127 hmem _ (mem_singleton_self _)) (by simp)
  · exact absurd hexp (by decide)

end HedgeDB
