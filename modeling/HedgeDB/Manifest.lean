/-
HedgeDB/Manifest.lean

The manifest of a partition (`src/db/sst_manager.cc`,
`src/db/sst_manager_loader.cc`).

`_serialize_levels` writes one line per level, the file names separated by `;`,
and then resizes the text to one page.  `_parse_manifest_and_load_ssts` reads line
by line and stops at a line without its newline; the levels that it does not reach
are empty.

So a level whose line does not end within the page is lost, and with it all levels
behind it.  `manifest_round_trip_iff`: the names come back if and only if the line
of every non-empty level ends within the page.  The number of SSTs in a partition
is not bounded, so it can fail (`manifest_cut`).
-/
import HedgeDB.Sst

namespace HedgeDB

open List

/-- A `std::string`. -/
abbrev Text := List Char

/-! ### File names -/

/-- The name of an SST file, as `flush_memtable` and the merge form it: the file
stem of the partition, a dot, the id with at least six digits. -/
def sstFileName (upperBound indexId : ℕ) : Text :=
  let number := toString indexId
  let padding := String.ofList (replicate (6 - number.length) '0')
  ((formatPrefix upperBound).2 ++ "." ++ padding ++ number).toList

/-- `path().filename()`. -/
def Sst.filename {K : Type*} (s : Sst K) : Text := sstFileName s.upperBound s.indexId

def hexDigits : Text := "0123456789abcdef".toList

/-- A name of the generated form: hex digits, a dot, decimal digits. -/
def GeneratedName (name : Text) : Prop :=
  ∃ stem id, name = stem ++ '.' :: id ∧ (∀ c ∈ stem, c ∈ hexDigits) ∧
    id ≠ [] ∧ ∀ c ∈ id, c.isDigit = true

/-! ### Writing -/

section Codec

variable {α : Type*} (filename : α → Text)

/-- The loop over one level: `;` before every name but the first. -/
def appendLevel : Text → Bool → List α → Text
  | result, _, [] => result
  | result, first, sst :: rest =>
      appendLevel ((if first then result else result ++ [';']) ++ filename sst) false rest

def appendLevels : Text → List (List α) → Text
  | result, [] => result
  | result, level :: rest => appendLevels (appendLevel filename result true level ++ ['\n']) rest

/-- `std::string::resize` with a fill character. -/
def resizeText (text : Text) (size : ℕ) (fill : Char) : Text :=
  (text ++ replicate (size - text.length) fill).take size

def serializeLevels (levels : List (List α)) : Text :=
  resizeText (appendLevels filename [] levels) pageSizeInBytes '\x00'

/-! ### Reading -/

/-- `split_str_by`: the parts between the delimiters, empty ones included. -/
def splitStrBy (s : Text) (delim : Char) : List Text := s.splitOn delim

def loadNames (load : Text → Expected α) : List Text → Expected (List α)
  | [] => .ok []
  | fname :: rest =>
      if fname.isEmpty then loadNames load rest
      else do
        let sst ← load fname
        let ssts ← loadNames load rest
        .ok (sst :: ssts)

def loadLine (load : Text → Expected α) (line : Text) : Expected (List α) :=
  if line.isEmpty then .ok [] else loadNames load (splitStrBy line ';')

/-- `_parse_manifest_and_load_ssts`: `levelsLeft` is `max_num_levels - level_idx`
and `content` what stands from `pos` on. -/
def parseManifestAndLoadSsts (load : Text → Expected α) : ℕ → Text → Expected (List (List α))
  | 0, _ => .ok []
  | levelsLeft + 1, content =>
      if '\n' ∈ content then do
        let line := content.takeWhile (· ≠ '\n')
        let level ← loadLine load line
        let rest ← parseManifestAndLoadSsts load levelsLeft (content.drop (line.length + 1))
        .ok (level :: rest)
      else .ok (replicate (levelsLeft + 1) [])

end Codec

/-! ### Generated names -/

theorem length_sstFileName (upperBound indexId : ℕ) :
    11 ≤ (sstFileName upperBound indexId).length := by
  have hnumber : (toString indexId).length = (toString indexId).toList.length := rfl
  simp only [sstFileName, formatPrefix, String.toList_append, String.toList_ofList,
    length_append, length_replicate, length_cons, length_nil, hnumber]
  show 11 ≤ 4 + 1 + _ + _
  omega

theorem toList_toString (n : ℕ) : (toString n).toList = Nat.toDigits 10 n := String.toList_ofList

theorem sstFileName_injective (upperBound : ℕ) : Function.Injective (sstFileName upperBound) := by
  intro m n h
  simp only [sstFileName, String.toList_append, append_assoc, append_cancel_left_eq,
    String.toList_ofList, toList_toString] at h
  have hvalue := congrArg (Nat.ofDigitChars 10 · 0) h
  simpa only [Nat.ofDigitChars_append, Nat.ofDigitChars_replicate_zero, Nat.mul_zero,
    Nat.ofDigitChars_ten_toDigits] using hvalue

theorem digitChar_mem_hexDigits (n : ℕ) : Nat.digitChar (n % 16) ∈ hexDigits := by
  have h : ∀ d < 16, Nat.digitChar d ∈ hexDigits := by decide
  exact h _ (Nat.mod_lt _ (by decide))

theorem generated_sstFileName (upperBound indexId : ℕ) :
    ∃ stem id, sstFileName upperBound indexId = stem ++ '.' :: id ∧ (∀ c ∈ stem, c ∈ hexDigits) ∧
      id ≠ [] ∧ (∀ c ∈ id, c.isDigit = true) ∧ Nat.ofDigitChars 10 id 0 = indexId := by
  refine ⟨(formatPrefix upperBound).2.toList,
    replicate (6 - (toString indexId).length) '0' ++ (toString indexId).toList, ?_, ?_, ?_, ?_, ?_⟩
  · simp [sstFileName]
  · intro c hc
    simp only [formatPrefix, String.toList_append, String.toList_ofList, mem_append,
      mem_cons, not_mem_nil, or_false] at hc
    rcases hc with (rfl | rfl) | rfl | rfl <;> exact digitChar_mem_hexDigits _
  · rw [toList_toString]
    exact append_ne_nil_of_right_ne_nil _ Nat.toDigits_ne_nil
  · intro c hc
    rcases mem_append.mp hc with hc | hc
    · rw [eq_of_mem_replicate hc]
      rfl
    · rw [toList_toString] at hc
      exact Nat.isDigit_of_mem_toDigits (by decide) (by decide) hc
  · rw [toList_toString, Nat.ofDigitChars_append, Nat.ofDigitChars_replicate_zero, Nat.mul_zero,
      Nat.ofDigitChars_ten_toDigits]

theorem generatedName_sstFileName (upperBound indexId : ℕ) :
    GeneratedName (sstFileName upperBound indexId) := by
  obtain ⟨stem, id, hname, hstem, hne, hid, -⟩ := generated_sstFileName upperBound indexId
  exact ⟨stem, id, hname, hstem, hne, hid⟩

theorem Sst.generatedName_filename {K : Type*} (s : Sst K) : GeneratedName s.filename :=
  generatedName_sstFileName s.upperBound s.indexId

theorem GeneratedName.not_mem {name : Text} (h : GeneratedName name) :
    name ≠ [] ∧ ';' ∉ name ∧ '\n' ∉ name := by
  obtain ⟨stem, id, rfl, hstem, -, hid⟩ := h
  have hmem : ∀ c ∈ stem ++ '.' :: id, c ∈ hexDigits ∨ c = '.' ∨ c.isDigit = true := by
    intro c hc
    rcases mem_append.mp hc with hc | hc
    · exact .inl (hstem c hc)
    · rcases mem_cons.mp hc with rfl | hc
      · exact .inr (.inl rfl)
      · exact .inr (.inr (hid c hc))
  refine ⟨by simp, fun hc => ?_, fun hc => ?_⟩
  · exact absurd (hmem _ hc) (by decide)
  · exact absurd (hmem _ hc) (by decide)

/-! ### What the text is -/

section RoundTrip

variable {α : Type*} {filename : α → Text}

def levelLine (filename : α → Text) (level : List α) : Text :=
  [';'].intercalate (level.map filename) ++ ['\n']

/-- The lines of all levels: the manifest before it is resized. -/
def levelLines (filename : α → Text) (levels : List (List α)) : Text :=
  levels.flatMap (levelLine filename)

variable {level : List α}

theorem mul_length_le_levelLine {n : ℕ} (hne : level ≠ [])
    (h : ∀ s ∈ level, n ≤ (filename s).length) :
    (n + 1) * level.length ≤ (levelLine filename level).length := by
  induction level with
  | nil => exact absurd rfl hne
  | cons s rest ih =>
    have hs := h s mem_cons_self
    rcases rest with - | ⟨s', rest⟩
    · simpa [levelLine] using hs
    · have hrest := ih (by simp) fun t ht => h t (mem_cons_of_mem _ ht)
      simp only [levelLine, map_cons, length_append, length_cons,
        length_nil, Nat.mul_add, intercalate_cons_cons] at hrest ⊢
      omega

theorem appendLevel_eq (result : Text) (level : List α) :
    appendLevel filename result true level =
      result ++ [';'].intercalate (level.map filename) := by
  have hrest : ∀ (level : List α) (result : Text),
      appendLevel filename result false level =
        result ++ level.flatMap fun sst => ';' :: filename sst := by
    intro level
    induction level with
    | nil => simp [appendLevel]
    | cons sst rest ih =>
      intro result
      rw [appendLevel, ih]
      simp
  rcases level with - | ⟨sst, rest⟩
  · simp [appendLevel]
  · rw [appendLevel, hrest]
    simp only [if_true, append_assoc, map_cons]
    congr 1
    induction rest generalizing sst with
    | nil => simp
    | cons sst' rest ih => simp [← ih]

theorem appendLevels_eq (result : Text) (levels : List (List α)) :
    appendLevels filename result levels = result ++ levelLines filename levels := by
  induction levels generalizing result with
  | nil => simp [appendLevels, levelLines]
  | cons level rest ih =>
    rw [appendLevels, ih, appendLevel_eq]
    simp [levelLines, levelLine]

/-! ### Reading the text back -/

variable {β : Type*} {load : Text → Expected β} {reload : α → β}

/-- The levels that survive when only the first `size` characters are kept. -/
def keptLevels (filename : α → Text) : ℕ → List (List α) → List (List α)
  | _, [] => []
  | size, level :: rest =>
      if (levelLine filename level).length ≤ size then
        level :: keptLevels filename (size - (levelLine filename level).length) rest
      else replicate (rest.length + 1) []

theorem loadNames_eq (hnames : ∀ s ∈ level, GeneratedName (filename s))
    (hload : ∀ s ∈ level, load (filename s) = .ok (reload s)) :
    loadNames load (level.map filename) = .ok (level.map reload) := by
  induction level with
  | nil => rfl
  | cons s rest ih =>
    have hne : (filename s).isEmpty = false :=
      isEmpty_eq_false_iff.mpr (hnames s mem_cons_self).not_mem.1
    rw [map_cons, loadNames, hne, hload s mem_cons_self,
      ih (fun s' h => hnames s' (mem_cons_of_mem _ h))
        (fun s' h => hload s' (mem_cons_of_mem _ h))]
    rfl

theorem loadLine_eq (hnames : ∀ s ∈ level, GeneratedName (filename s))
    (hload : ∀ s ∈ level, load (filename s) = .ok (reload s)) :
    loadLine load ([';'].intercalate (level.map filename)) = .ok (level.map reload) := by
  rcases level with - | ⟨s, rest⟩
  · rfl
  · have hne : [';'].intercalate ((s :: rest).map filename) ≠ [] := by
      have := (hnames s mem_cons_self).not_mem.1
      rcases rest with - | ⟨s', rest⟩ <;> simp [this]
    have hsplit : ∀ name ∈ (s :: rest).map filename, ';' ∉ name := by
      intro name hname
      obtain ⟨s', hs', rfl⟩ := mem_map.mp hname
      exact (hnames s' hs').not_mem.2.1
    rw [loadLine, if_neg (by simpa using hne), splitStrBy,
      splitOn_intercalate ';' hsplit (by simp), loadNames_eq hnames hload]

theorem newline_not_mem (hnames : ∀ s ∈ level, GeneratedName (filename s)) :
    '\n' ∉ [';'].intercalate (level.map filename) := by
  induction level with
  | nil => simp
  | cons s rest ih =>
    have hs := (hnames s mem_cons_self).not_mem.2.2
    have hrest := ih fun s' h => hnames s' (mem_cons_of_mem _ h)
    rcases rest with - | ⟨s', rest⟩
    · simpa using hs
    · simpa [hs] using hrest

theorem parse_line (levelsLeft : ℕ) (rest : Text)
    (hnames : ∀ s ∈ level, GeneratedName (filename s))
    (hload : ∀ s ∈ level, load (filename s) = .ok (reload s)) :
    parseManifestAndLoadSsts load (levelsLeft + 1) (levelLine filename level ++ rest) =
      (parseManifestAndLoadSsts load levelsLeft rest).map (level.map reload :: ·) := by
  have hline : ∀ c ∈ [';'].intercalate (level.map filename), decide (c ≠ '\n') = true := by
    intro c hc
    exact decide_eq_true fun h => newline_not_mem hnames (h ▸ hc)
  have htake : (levelLine filename level ++ rest).takeWhile (· ≠ '\n') =
      [';'].intercalate (level.map filename) := by
    rw [levelLine, append_assoc, takeWhile_append_of_pos hline]
    simp
  have hdrop : (levelLine filename level ++ rest).drop
      (([';'].intercalate (level.map filename)).length + 1) = rest := by
    rw [levelLine]
    exact drop_left' (by simp)
  rw [parseManifestAndLoadSsts, if_pos (by simp [levelLine]), htake]
  dsimp only
  rw [hdrop, loadLine_eq hnames hload]
  rcases parseManifestAndLoadSsts load levelsLeft rest with e | ssts <;> rfl

/-- **What is read from the first `size` characters** of the lines and the padding:
the levels whose lines stand whole, and empty levels after them. -/
theorem parse_take (size : ℕ) (levels : List (List α)) (zeros : Text)
    (hnames : ∀ level ∈ levels, ∀ s ∈ level, GeneratedName (filename s))
    (hload : ∀ level ∈ levels, ∀ s ∈ level, load (filename s) = .ok (reload s)) :
    parseManifestAndLoadSsts load levels.length
        ((levelLines filename levels ++ zeros).take size) =
      .ok ((keptLevels filename size levels).map (·.map reload)) := by
  induction levels generalizing size with
  | nil => rfl
  | cons level rest ih =>
    have ih' := ih (size - (levelLine filename level).length)
      (fun l hl => hnames l (mem_cons_of_mem _ hl))
      (fun l hl => hload l (mem_cons_of_mem _ hl))
    have hlines : levelLines filename (level :: rest) ++ zeros =
        levelLine filename level ++ (levelLines filename rest ++ zeros) := by
      rw [levelLines, flatMap_cons, append_assoc, levelLines]
    rw [hlines, length_cons, take_append, keptLevels]
    by_cases hfits : (levelLine filename level).length ≤ size
    · rw [if_pos hfits, take_of_length_le hfits,
        parse_line _ _ (hnames level mem_cons_self) (hload level mem_cons_self), ih']
      rfl
    · -- the line is cut before its newline, and nothing follows
      have hcut : '\n' ∉ (levelLine filename level).take size := by
        have hlen : size ≤ ([';'].intercalate (level.map filename)).length := by
          simp only [levelLine, length_append, length_singleton] at hfits
          omega
        rw [levelLine, take_append_of_le_length hlen]
        exact fun h => newline_not_mem (hnames level mem_cons_self) (mem_of_mem_take h)
      have hrest : size - (levelLine filename level).length = 0 := by omega
      rw [if_neg hfits, hrest, take_zero, append_nil, parseManifestAndLoadSsts,
        if_neg hcut, map_replicate, map_nil]

/-! ### The round trip -/

/-- The line of every non-empty level ends within the first `size` characters. -/
def LinesFit (filename : α → Text) (size : ℕ) (levels : List (List α)) : Prop :=
  ∀ i < levels.length, levels[i]? ≠ some [] →
    (levelLines filename (levels.take (i + 1))).length ≤ size

instance [DecidableEq α] (filename : α → Text) (size : ℕ) (levels : List (List α)) :
    Decidable (LinesFit filename size levels) :=
  inferInstanceAs (Decidable (∀ i < levels.length, levels[i]? ≠ some [] → _ ≤ size))

theorem linesFit_cons {size : ℕ} {rest : List (List α)} :
    LinesFit filename size (level :: rest) ↔
      (level ≠ [] → (levelLine filename level).length ≤ size) ∧
        ∀ i < rest.length, rest[i]? ≠ some [] →
          (levelLine filename level).length +
            (levelLines filename (rest.take (i + 1))).length ≤ size := by
  have hcons : ∀ i, (levelLines filename ((level :: rest).take (i + 1))).length =
      (levelLine filename level).length + (levelLines filename (rest.take i)).length := by
    intro i
    rw [take_succ_cons, levelLines, flatMap_cons, length_append, levelLines]
  constructor
  · intro h
    refine ⟨fun hne => ?_, fun i hi hne => ?_⟩
    · have := h 0 (Nat.zero_lt_succ _) (by simpa using hne)
      rw [hcons] at this
      omega
    · have := h (i + 1) (Nat.succ_lt_succ hi) (by simpa using hne)
      rwa [hcons] at this
  · rintro ⟨hlevel, hrest⟩ i hi hne
    rw [hcons]
    rcases i with - | i
    · simpa [levelLines] using hlevel (by simpa using hne)
    · exact hrest i (Nat.lt_of_succ_lt_succ hi) (by simpa using hne)

/-- Nothing is lost, judged by anything that tells an empty level, if and only if the
lines fit. -/
theorem keptLevels_eq_iff (view : List α → β) (hview : ∀ l, view l = view [] → l = [])
    (size : ℕ) (levels : List (List α)) :
    (keptLevels filename size levels).map view = levels.map view ↔
      LinesFit filename size levels := by
  induction levels generalizing size with
  | nil => simp [keptLevels, LinesFit]
  | cons level rest ih =>
    rw [keptLevels, linesFit_cons]
    by_cases hfits : (levelLine filename level).length ≤ size
    · rw [if_pos hfits, map_cons, map_cons, cons.injEq, and_iff_right rfl, ih,
        and_iff_right (fun _ => hfits)]
      refine forall₃_congr fun i _ _ => ?_
      omega
    · rw [if_neg hfits, map_replicate]
      constructor
      · intro heq
        have hall : ∀ l ∈ level :: rest, l = [] := by
          intro l hl
          have hmem : view l ∈ (level :: rest).map view := mem_map_of_mem hl
          rw [← heq] at hmem
          exact hview l (eq_of_mem_replicate hmem)
        refine ⟨fun hne => absurd (hall level mem_cons_self) hne, fun i hi hne => ?_⟩
        rw [getElem?_eq_getElem hi] at hne
        exact absurd (congrArg some (hall _ (mem_cons_of_mem _ (getElem_mem hi)))) hne
      · rintro ⟨hlevel, hrest⟩
        have hlevel' : level = [] := by
          by_contra hne
          exact hfits (hlevel hne)
        have hrest' : ∀ l ∈ rest, l = [] := by
          intro l hl
          by_contra hne
          obtain ⟨i, hi, rfl⟩ := getElem_of_mem hl
          have := hrest i hi (by rw [getElem?_eq_getElem hi]; simpa using hne)
          omega
        rw [hlevel', eq_replicate_of_mem hrest', map_cons,
          map_replicate, length_replicate, replicate_succ]

/-- The text of a partition's levels stands on the page as far as it matters. -/
def ManifestFits (filename : α → Text) (levels : List (List α)) : Prop :=
  LinesFit filename pageSizeInBytes levels

instance [DecidableEq α] (filename : α → Text) (levels : List (List α)) :
    Decidable (ManifestFits filename levels) :=
  inferInstanceAs (Decidable (LinesFit filename pageSizeInBytes levels))

theorem parse_serializeLevels (levels : List (List α))
    (hnames : ∀ level ∈ levels, ∀ s ∈ level, GeneratedName (filename s))
    (hload : ∀ level ∈ levels, ∀ s ∈ level, load (filename s) = .ok (reload s)) :
    parseManifestAndLoadSsts load levels.length (serializeLevels filename levels) =
      .ok ((keptLevels filename pageSizeInBytes levels).map (·.map reload)) := by
  rw [serializeLevels, appendLevels_eq, nil_append, resizeText, parse_take _ _ _ hnames hload]

theorem mem_keptLevels {size : ℕ} {levels : List (List α)} {s : α}
    (hl : level ∈ keptLevels filename size levels) (hs : s ∈ level) : level ∈ levels := by
  induction levels generalizing size with
  | nil => exact hl
  | cons l rest ih =>
    rw [keptLevels] at hl
    split at hl
    · rcases mem_cons.mp hl with rfl | hl
      · exact mem_cons_self
      · exact mem_cons_of_mem _ (ih hl)
    · rw [eq_of_mem_replicate hl] at hs
      exact absurd hs (not_mem_nil)

/-- **The manifest round trip, exactly.**  The loader finds the names of every
level in order if and only if the line of every non-empty level ends within the
page.  `reload` is what `sst::load` makes of the file of an SST. -/
theorem manifest_round_trip_iff (filename : α → Text) (load : Text → Expected α)
    (reload : α → α) (levels : List (List α))
    (hnames : ∀ level ∈ levels, ∀ s ∈ level, GeneratedName (filename s))
    (hload : ∀ level ∈ levels, ∀ s ∈ level,
      load (filename s) = .ok (reload s) ∧ filename (reload s) = filename s) :
    (∃ ssts, parseManifestAndLoadSsts load levels.length (serializeLevels filename levels) =
        .ok ssts ∧ ssts.map (·.map filename) = levels.map (·.map filename)) ↔
      ManifestFits filename levels := by
  have hparse := parse_serializeLevels levels hnames fun l hl s hs => (hload l hl s hs).1
  have hsame : ((keptLevels filename pageSizeInBytes levels).map (·.map reload)).map
      (·.map filename) = (keptLevels filename pageSizeInBytes levels).map (·.map filename) := by
    rw [map_map]
    refine map_congr_left fun level hlevel => ?_
    rw [Function.comp_apply, map_map]
    exact map_congr_left fun s hs => (hload level (mem_keptLevels hlevel hs) s hs).2
  rw [ManifestFits, ← keptLevels_eq_iff (·.map filename) (fun l h => by simpa using h),
    ← hsame]
  constructor
  · rintro ⟨ssts, hssts, hnames'⟩
    rw [hparse] at hssts
    obtain rfl := Except.ok.inj hssts
    exact hnames'
  · intro heq
    exact ⟨_, hparse, heq⟩

end RoundTrip

/-- Two levels with SSTs around an empty one. -/
theorem manifest_round_trip_three :
    let levels : List (List ℕ) := [[3, 4], [], [2]]
    let load := fun name => if name = sstFileName 65535 2 then .ok 2
      else if name = sstFileName 65535 3 then .ok 3 else .ok 4
    ∃ ssts, parseManifestAndLoadSsts load levels.length
        (serializeLevels (sstFileName 65535) levels) = .ok ssts ∧
      ssts.map (·.map (sstFileName 65535)) = levels.map (·.map (sstFileName 65535)) :=
  (manifest_round_trip_iff (sstFileName 65535) _ id [[3, 4], [], [2]]
    (fun _ _ _ _ => generatedName_sstFileName _ _) (by decide +kernel)).mpr
    (by decide +kernel)

/-- 342 SSTs in one level do not fit: the line is cut, and all of them are lost. -/
theorem manifest_cut :
    let levels : List (List Text) := [(range 342).map (sstFileName 65535)]
    (∀ level ∈ levels, ∀ name ∈ level, GeneratedName name) ∧
      parseManifestAndLoadSsts .ok levels.length (serializeLevels id levels) = .ok [[]] := by
  intro levels
  have hnames : ∀ level ∈ levels, ∀ name ∈ level, GeneratedName name := by
    intro level hlevel name hname
    rw [mem_singleton.mp hlevel] at hname
    obtain ⟨i, -, rfl⟩ := mem_map.mp hname
    exact generatedName_sstFileName _ _
  have hparse : parseManifestAndLoadSsts .ok levels.length (serializeLevels id levels) =
      .ok ((keptLevels id pageSizeInBytes levels).map (·.map id)) :=
    parse_serializeLevels levels hnames fun _ _ _ _ => rfl
  have hlong : ¬ (levelLine id ((range 342).map (sstFileName 65535))).length ≤
      pageSizeInBytes := by
    have hnameLen : ∀ name ∈ (range 342).map (sstFileName 65535), 11 ≤ (id name).length := by
      intro name hname
      obtain ⟨i, -, rfl⟩ := mem_map.mp hname
      exact length_sstFileName _ _
    have hlen := mul_length_le_levelLine (by simp) hnameLen
    rw [length_map, length_range] at hlen
    exact fun hle => absurd (hlen.trans hle) (by decide)
  refine ⟨hnames, hparse.trans ?_⟩
  rw [keptLevels, if_neg hlong]
  rfl

end HedgeDB
