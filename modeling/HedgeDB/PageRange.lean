/-
HedgeDB/PageRange.lean

The pages of a range in a file (`sst::find_range`, `src/db/sst.cc`;
`range_iterator::make_new`, `src/db/range_iterator.cc`).

The search gives the first and the last page of a range, and `make_new` turns them into
byte offsets, all in 64-bit numbers.  Every entry in range is on a page between the offsets
(`SstPages.page_within`).  An SST without a page comes out of a merge that discards
everything: there the last page is the largest number, the page behind it is page 0 again,
and the range is empty.

`exists_sstPages` says that what the two writers of an index leave is such an SST.
-/
import HedgeDB.CursorRange
import HedgeDB.Paging

namespace HedgeDB

open List

/-- The entries of a page as they are written. -/
def pairs (page : List (Record Bytes)) : List (Bytes × Bytes) := page.map fun r => (r.key, r.value)

/-- The meta index of the pages: the last key of each. -/
def metaIndexOf (pages : List (List (Record Bytes))) : List Bytes :=
  pages.map fun page => lastKey (pairs page)

/-- An SST as it lies in its file: the entries page by page from `index_offset` on, the meta index
behind them, and a super index over it or none. -/
structure SstPages where
  pages : List (List (Record Bytes))
  superIndex : Option (List Bytes)
  indexOffset : ℕ
  metaIndexOffset : ℕ
  page_ne : ∀ page ∈ pages, page ≠ []
  sorted : pages.flatten.Pairwise fun a b => a.key < b.key
  super : superIndex = none ∨ superIndex = some (createSuperIndex (metaIndexOf pages)) ∨
    superIndex = loadSuperIndex (metaIndexOf pages)
  aligned : indexOffset % pageSizeInBytes = 0
  offsets : metaIndexOffset = indexOffset + pages.length * pageSizeInBytes
  fits : metaIndexOffset < 2 ^ 64

structure PageRange where
  firstPageId : ℕ
  lastPageId : ℕ
  deriving DecidableEq, Repr

/-- `_meta_index.size() - 1`, which wraps without an entry. -/
def lastPageId (metaIndexSize : ℕ) : ℕ := (metaIndexSize + (2 ^ 64 - 1)) % 2 ^ 64

def findRange (metaIndexSize : ℕ) (findPageId : Bytes → Option ℕ) (lower upper : Option Bytes) :
    Option PageRange :=
  let first :=
    match lower with
    | none => some 0
    | some key => findPageId key
  let last :=
    match upper with
    | none => lastPageId metaIndexSize
    | some key => (findPageId key).getD (lastPageId metaIndexSize)
  first.map (⟨·, last⟩)

namespace SstPages

def metaIndex (X : SstPages) : List Bytes := metaIndexOf X.pages

def findPageId (X : SstPages) (key : Bytes) : Option ℕ :=
  HedgeDB.findPageId X.metaIndex X.superIndex key

def findRange (X : SstPages) (lower upper : Option Bytes) : Option PageRange :=
  HedgeDB.findRange X.metaIndex.length X.findPageId lower upper

/-- `start_offset` of `make_new`. -/
def startOffset (X : SstPages) (range : PageRange) : ℕ :=
  (X.indexOffset + range.firstPageId * pageSizeInBytes % 2 ^ 64) % 2 ^ 64

/-- `end_offset` of `make_new`. -/
def endOffset (X : SstPages) (range : PageRange) : ℕ :=
  (X.indexOffset + (range.lastPageId + 1) % 2 ^ 64 * pageSizeInBytes % 2 ^ 64) % 2 ^ 64

/-- A page lies between two offsets. -/
def PageWithin (X : SstPages) (j start stop : ℕ) : Prop :=
  start ≤ X.indexOffset + j * pageSizeInBytes ∧
    X.indexOffset + j * pageSizeInBytes + pageSizeInBytes ≤ stop

/-- The pages that a reader of the bytes between two offsets gets. -/
def pagesBetween (X : SstPages) (start stop : ℕ) : List (List (Record Bytes)) :=
  (X.pages.take ((stop - X.indexOffset) / pageSizeInBytes)).drop
    ((start - X.indexOffset) / pageSizeInBytes)

end SstPages

/-! ### The page of a key -/

namespace SstPages

variable (X : SstPages)

theorem pairs_sorted : (X.pages.map pairs).flatten.Pairwise fun a b => a.1 < b.1 := by
  rw [show X.pages.map pairs = X.pages.map (map fun r => (r.key, r.value)) from rfl,
    ← map_flatten]
  exact pairwise_map.mpr X.sorted

theorem pairs_ne : ∀ block ∈ X.pages.map pairs, block ≠ [] := by
  intro block hblock
  obtain ⟨page, hpage, rfl⟩ := mem_map.mp hblock
  exact fun hnil => X.page_ne page hpage (map_eq_nil_iff.mp hnil)

theorem findPageId_eq_findIdx (key : Bytes) :
    X.findPageId key = (X.pages.map pairs).findIdx? fun block => decide (key ≤ lastKey block) := by
  have hindex := map_lastKey_sorted X.pairs_ne X.pairs_sorted
  have hmap : metaIndexOf X.pages = (X.pages.map pairs).map lastKey := by
    rw [map_map]
    rfl
  rw [findPageId, metaIndex, hmap, findPageId_eq hindex (hmap ▸ X.super), findPageId_findIdx hindex]

/-- The pages before the one that is found have smaller keys, those behind it larger ones. -/
theorem findPageId_spec (key : Bytes) :
    match X.findPageId key with
    | none => ∀ r ∈ X.pages.flatten, r.key < key
    | some i => (∃ page, X.pages[i]? = some page ∧ ∃ r ∈ page, key ≤ r.key) ∧
        ∀ j page, X.pages[j]? = some page → ∀ r ∈ page,
          (j < i → r.key < key) ∧ (i < j → key < r.key) := by
  obtain ⟨hinner, houter⟩ := pairwise_flatten.mp X.sorted
  have hlast : ∀ page ∈ X.pages, (∃ x ∈ page, x.key = lastKey (pairs page)) ∧
      ∀ r ∈ page, r.key ≤ lastKey (pairs page) := by
    intro page hpage
    obtain ⟨⟨x, hx, heq⟩, hle⟩ := lastKey_spec (X.pairs_ne _ (mem_map_of_mem hpage))
      ((pairwise_flatten.mp X.pairs_sorted).1 _ (mem_map_of_mem hpage))
    obtain ⟨r, hr, rfl⟩ := mem_map.mp hx
    exact ⟨⟨r, hr, heq⟩, fun r hr => hle _ (mem_map_of_mem hr)⟩
  rw [X.findPageId_eq_findIdx, List.findIdx?_map]
  rcases hfind : X.pages.findIdx? _ with - | i
  · intro r hr
    obtain ⟨page, hpage, hr'⟩ := mem_flatten.mp hr
    have hbelow := List.findIdx?_eq_none_iff.mp hfind page hpage
    exact ((hlast page hpage).2 r hr').trans_lt (by simpa using hbelow)
  · obtain ⟨hi, hat, hbefore⟩ := List.findIdx?_eq_some_iff_getElem.mp hfind
    obtain ⟨⟨x, hx, heq⟩, -⟩ := hlast _ (getElem_mem hi)
    have hkey : key ≤ x.key := by
      rw [heq]
      exact of_decide_eq_true hat
    refine ⟨⟨_, List.getElem?_eq_getElem hi, x, hx, hkey⟩, fun j page hpage r hr => ?_⟩
    obtain ⟨hj, rfl⟩ := List.getElem?_eq_some_iff.mp hpage
    constructor
    · intro hji
      have hbelow := hbefore j hji
      exact ((hlast _ (getElem_mem hj)).2 r hr).trans_lt (by simpa using hbelow)
    · intro hij
      exact hkey.trans_lt (pairwise_iff_getElem.mp houter i j hi hj hij x hx r hr)

theorem length_lt : X.pages.length < 2 ^ 64 := by
  have hoffsets := X.offsets
  have hfits := X.fits
  rw [pageSizeInBytes] at hoffsets
  omega

/-! ### The bytes of a range -/

variable {X} {lower upper : Option Bytes} {range : PageRange}

theorem findRange_cases (h : X.findRange lower upper = some range) :
    (lower = none ∧ range.firstPageId = 0 ∨
        ∃ key, lower = some key ∧ X.findPageId key = some range.firstPageId) ∧
      ((∀ key ∈ upper, X.findPageId key = none) ∧
          range.lastPageId = lastPageId X.pages.length ∨
        ∃ key, upper = some key ∧ X.findPageId key = some range.lastPageId) := by
  have hsize : X.metaIndex.length = X.pages.length := length_map ..
  rw [findRange, hsize] at h
  obtain ⟨first, hfirst, rfl⟩ := Option.map_eq_some_iff.mp h
  constructor
  · cases lower with
    | none =>
        cases hfirst
        exact .inl ⟨rfl, rfl⟩
    | some key => exact .inr ⟨key, rfl, hfirst⟩
  · cases upper with
    | none => exact .inl ⟨nofun, rfl⟩
    | some key =>
        dsimp only
        rcases hfind : X.findPageId key with - | last
        · refine .inl ⟨?_, Option.getD_none⟩
          rintro _ ⟨⟩
          exact hfind
        · exact .inr ⟨key, rfl, hfind⟩

theorem findRange_none (h : X.findRange lower upper = none) :
    ∀ r ∈ X.pages.flatten, ¬ InRange lower upper r.key := by
  intro r hr hin
  cases lower with
  | none => cases h
  | some key =>
    have hspec := X.findPageId_spec key
    rcases hfind : X.findPageId key with - | first
    · rw [hfind] at hspec
      exact (hspec r hr).not_ge (hin.1 key rfl)
    · have hsome : X.findRange (some key) upper = some _ :=
        Option.map_eq_some_iff.mpr ⟨first, hfind, rfl⟩
      cases h.symm.trans hsome

theorem length_of_findPageId {key : Bytes} {i : ℕ} (h : X.findPageId key = some i) :
    i < X.pages.length := by
  have hspec := X.findPageId_spec key
  rw [h] at hspec
  obtain ⟨⟨page, hpage, -⟩, -⟩ := hspec
  exact (List.getElem?_eq_some_iff.mp hpage).1

theorem findPageId_mono {l u : Bytes} (hle : l ≤ u) {i j : ℕ} (hi : X.findPageId l = some i)
    (hj : X.findPageId u = some j) : i ≤ j := by
  have hl := X.findPageId_spec l
  have hu := X.findPageId_spec u
  rw [hi] at hl
  rw [hj] at hu
  obtain ⟨⟨page, hpage, r, hr, hur⟩, -⟩ := hu
  refine not_lt.mp fun hji => ?_
  exact ((hl.2 j page hpage r hr).1 hji).not_ge (hle.trans hur)

theorem findRange_bounds (hpages : X.pages ≠ []) (hle : ∀ l ∈ lower, ∀ u ∈ upper, l ≤ u)
    (h : X.findRange lower upper = some range) :
    range.firstPageId ≤ range.lastPageId ∧ range.lastPageId < X.pages.length := by
  have hlt := X.length_lt
  have hpos := length_pos_iff.mpr hpages
  obtain ⟨hfirst, hlast⟩ := findRange_cases h
  rw [lastPageId] at hlast
  have hfirst' : range.firstPageId < X.pages.length := by
    rcases hfirst with ⟨-, hzero⟩ | ⟨key, -, hfind⟩
    · rwa [hzero]
    · exact length_of_findPageId hfind
  rcases hlast with ⟨-, hlast⟩ | ⟨u, rfl, hlast⟩
  · omega
  · refine ⟨?_, length_of_findPageId hlast⟩
    rcases hfirst with ⟨-, hzero⟩ | ⟨l, rfl, hfind⟩
    · omega
    · exact findPageId_mono (hle l rfl u rfl) hfind hlast

theorem offsets_eq (hrange : range.firstPageId ≤ range.lastPageId)
    (hlast : range.lastPageId < X.pages.length) :
    X.startOffset range = X.indexOffset + range.firstPageId * pageSizeInBytes ∧
      X.endOffset range =
        X.indexOffset + range.lastPageId * pageSizeInBytes + pageSizeInBytes := by
  have hoffsets := X.offsets
  have hfits := X.fits
  rw [startOffset, endOffset, pageSizeInBytes] at *
  omega

theorem page_between (h : X.findRange lower upper = some range) {j : ℕ}
    {page : List (Record Bytes)} (hpage : X.pages[j]? = some page) {r : Record Bytes}
    (hr : r ∈ page) (hin : InRange lower upper r.key) :
    range.firstPageId ≤ j ∧ j ≤ range.lastPageId := by
  have hj : j < X.pages.length := (List.getElem?_eq_some_iff.mp hpage).1
  have hlt := X.length_lt
  have hspec : ∀ {key i}, X.findPageId key = some i →
      (j < i → r.key < key) ∧ (i < j → key < r.key) := by
    intro key i hfind
    have hspec := X.findPageId_spec key
    rw [hfind] at hspec
    exact hspec.2 j page hpage r hr
  obtain ⟨hfirst, hlast⟩ := findRange_cases h
  rw [lastPageId] at hlast
  constructor
  · rcases hfirst with ⟨-, hzero⟩ | ⟨l, rfl, hfind⟩
    · omega
    · exact not_lt.mp fun hjl => ((hspec hfind).1 hjl).not_ge (hin.1 l rfl)
  · rcases hlast with ⟨-, hlast⟩ | ⟨u, rfl, hfind⟩
    · omega
    · exact not_lt.mp fun huj => ((hspec hfind).2 huj).not_ge (hin.2 u rfl)

theorem page_within (h : X.findRange lower upper = some range) {j : ℕ}
    {page : List (Record Bytes)} (hpage : X.pages[j]? = some page) {r : Record Bytes}
    (hr : r ∈ page) (hin : InRange lower upper r.key) :
    X.PageWithin j (X.startOffset range) (X.endOffset range) := by
  have hpages : X.pages ≠ [] := ne_nil_of_mem (mem_of_getElem? hpage)
  obtain ⟨hrange, hlast⟩ := findRange_bounds hpages
    (fun l hl u hu => (hin.1 l hl).trans (hin.2 u hu)) h
  obtain ⟨hstart, hend⟩ := offsets_eq hrange hlast
  obtain ⟨hfirst, hle⟩ := page_between h hpage hr hin
  have hj := Nat.mul_le_mul_right pageSizeInBytes hfirst
  have hj' := Nat.mul_le_mul_right pageSizeInBytes hle
  constructor <;> omega

theorem pagesBetween_sublist (start stop : ℕ) : (X.pagesBetween start stop).Sublist X.pages :=
  (drop_sublist _ _).trans (take_sublist _ _)

theorem mem_pagesBetween (h : X.findRange lower upper = some range) {r : Record Bytes}
    (hr : r ∈ X.pages.flatten) (hin : InRange lower upper r.key) :
    r ∈ (X.pagesBetween (X.startOffset range) (X.endOffset range)).flatten := by
  obtain ⟨page, hpage, hr'⟩ := mem_flatten.mp hr
  obtain ⟨j, hj, rfl⟩ := getElem_of_mem hpage
  obtain ⟨hstart, hstop⟩ := page_within h (getElem?_eq_getElem hj) hr' hin
  refine mem_flatten.mpr ⟨_, ?_, hr'⟩
  have hfirst : (X.startOffset range - X.indexOffset) / pageSizeInBytes ≤ j := by
    rw [pageSizeInBytes] at *
    omega
  have hlast : j < (X.endOffset range - X.indexOffset) / pageSizeInBytes := by
    rw [pageSizeInBytes] at *
    omega
  refine mem_drop_iff_getElem.mpr
    ⟨j - (X.startOffset range - X.indexOffset) / pageSizeInBytes, ?_, ?_⟩
  · rw [length_take]
    omega
  · simp only [getElem_take]
    congr 1
    omega

variable (X)

theorem offsets_wrapped :
    X.startOffset ⟨0, 2 ^ 64 - 1⟩ = X.indexOffset ∧ X.endOffset ⟨0, 2 ^ 64 - 1⟩ = X.indexOffset := by
  have hoffsets := X.offsets
  have hfits := X.fits
  constructor
  · rw [startOffset, Nat.zero_mul, Nat.zero_mod, Nat.add_zero]
    exact Nat.mod_eq_of_lt (by omega)
  · have hwrap : (2 ^ 64 - 1 + 1) % 2 ^ 64 = 0 := by decide
    rw [endOffset, hwrap, Nat.zero_mul, Nat.zero_mod, Nat.add_zero]
    exact Nat.mod_eq_of_lt (by omega)

theorem findRange_of_nil (hpages : X.pages = []) (h : X.findRange lower upper = some range) :
    range = ⟨0, 2 ^ 64 - 1⟩ := by
  have hnone : ∀ key i, X.findPageId key ≠ some i := by
    intro key i hfind
    have hlt := length_of_findPageId hfind
    rw [hpages] at hlt
    cases hlt
  obtain ⟨hfirst | ⟨key, -, hfind⟩, hlast | ⟨key, -, hfind⟩⟩ := findRange_cases h
  · rw [hpages] at hlast
    obtain ⟨first, last⟩ := range
    exact congrArg₂ PageRange.mk hfirst.2 hlast.2
  · exact absurd hfind (hnone _ _)
  · exact absurd hfind (hnone _ _)
  · exact absurd hfind (hnone _ _)

/-- **The pages of a range.**  Where there are none, no entry is in range; otherwise the bytes are
whole pages of the index, and every entry in range is on one of them. -/
theorem range_covers (hle : ∀ l ∈ lower, ∀ u ∈ upper, l ≤ u) :
    match X.findRange lower upper with
    | none => ∀ r ∈ X.pages.flatten, ¬ InRange lower upper r.key
    | some range =>
        X.startOffset range % pageSizeInBytes = 0 ∧ X.endOffset range % pageSizeInBytes = 0 ∧
          (X.indexOffset ≤ X.startOffset range ∧ X.startOffset range ≤ X.endOffset range ∧
            X.endOffset range ≤ X.metaIndexOffset) ∧
          ∀ j page, X.pages[j]? = some page → ∀ r ∈ page, InRange lower upper r.key →
            X.PageWithin j (X.startOffset range) (X.endOffset range) := by
  have haligned := X.aligned
  have hoffsets := X.offsets
  cases hfind : X.findRange lower upper with
  | none => exact findRange_none hfind
  | some range =>
    dsimp only
    have hwithin : ∀ j page, X.pages[j]? = some page → ∀ r ∈ page, InRange lower upper r.key →
        X.PageWithin j (X.startOffset range) (X.endOffset range) :=
      fun j page hpage r hr hin => page_within hfind hpage hr hin
    rcases eq_or_ne X.pages [] with hnil | hpages
    · obtain rfl := X.findRange_of_nil hnil hfind
      obtain ⟨hstart, hend⟩ := X.offsets_wrapped
      rw [hstart, hend] at hwithin ⊢
      exact ⟨haligned, haligned, ⟨le_refl _, le_refl _, by omega⟩, hwithin⟩
    · obtain ⟨hrange, hlast⟩ := findRange_bounds hpages hle hfind
      obtain ⟨hstart, hend⟩ := offsets_eq hrange hlast
      rw [hstart, hend] at hwithin ⊢
      have hmul := Nat.mul_le_mul_right pageSizeInBytes hrange
      have hmul' := Nat.mul_le_mul_right pageSizeInBytes (Nat.succ_le_of_lt hlast)
      rw [Nat.succ_mul] at hmul'
      refine ⟨?_, ?_, ⟨by omega, by omega, by omega⟩, hwithin⟩
      · rw [Nat.add_mul_mod_self_right, haligned]
      · rw [Nat.add_mod_right, Nat.add_mul_mod_self_right, haligned]

/-- The second of two pages. -/
theorem range_covers_second : ∃ X : SstPages,
    X.pages = [[⟨[1], 0, [7]⟩, ⟨[2], 0, [8]⟩], [⟨[4], 0, [9]⟩]] ∧
      X.findRange (some [3]) (some [9]) = some ⟨1, 1⟩ ∧
      X.startOffset ⟨1, 1⟩ = 4096 ∧ X.endOffset ⟨1, 1⟩ = 8192 ∧
      ∀ j page, X.pages[j]? = some page → ∀ r ∈ page, InRange (some [3]) (some [9]) r.key →
        X.PageWithin j 4096 8192 := by
  obtain ⟨X, hpages, hsuper, hindex⟩ : ∃ X : SstPages,
      X.pages = [[⟨[1], 0, [7]⟩, ⟨[2], 0, [8]⟩], [⟨[4], 0, [9]⟩]] ∧ X.superIndex = none ∧
        X.indexOffset = 0 :=
    ⟨{ pages := [[⟨[1], 0, [7]⟩, ⟨[2], 0, [8]⟩], [⟨[4], 0, [9]⟩]]
       superIndex := none
       indexOffset := 0
       metaIndexOffset := 8192
       page_ne := by decide
       sorted := by decide
       super := .inl rfl
       aligned := rfl
       offsets := rfl
       fits := by decide }, rfl, rfl, rfl⟩
  have hfind : X.findRange (some [3]) (some [9]) = some ⟨1, 1⟩ := by
    have hfind : X.findPageId = HedgeDB.findPageId [[2], [4]] none := by
      funext key
      rw [SstPages.findPageId, metaIndex, hpages, hsuper]
      rfl
    rw [findRange, hfind, metaIndex, hpages]
    decide
  have hstart : X.startOffset ⟨1, 1⟩ = 4096 := by
    rw [startOffset, hindex]
    rfl
  have hend : X.endOffset ⟨1, 1⟩ = 8192 := by
    rw [endOffset, hindex]
    rfl
  have hle : ∀ l ∈ (some [3] : Option Bytes), ∀ u ∈ (some [9] : Option Bytes), l ≤ u := by decide
  have hcovers := range_covers X hle
  rw [hfind] at hcovers
  refine ⟨X, hpages, hfind, hstart, hend, ?_⟩
  rw [← hstart, ← hend]
  exact hcovers.2.2.2

end SstPages

/-! ### What the writers leave -/

/-- The index that a flush or a merge writes is an SST with these pages, from the start of the
file up to the offset of its meta index.  The stamps of the entries are not in the file. -/
theorem exists_sstPages {checksum : Bytes → UInt32} {kvs : List (Bytes × Bytes)}
    (hkeys : ∀ kv ∈ kvs, (1 ≤ kv.1.length ∧ kv.1.length ≤ maxKeyLen) ∧ FitsEmptyBlock kv.1 kv.2)
    (hsorted : kvs.Pairwise fun a b => a.1 < b.1) {caller : IndexCaller} {buf : PageBuffer}
    {s : IndexWriter} (hall : (IndexWriter.make buf).writeAll caller checksum kvs = .ok s)
    (hbytes : s.bytesWritten < 2 ^ 64) :
    ∃ X : SstPages, (X.pages.map pairs).flatten = kvs ∧ X.metaIndex = s.buffer.metaIndex ∧
      X.indexOffset = 0 ∧ X.metaIndexOffset = s.bytesWritten := by
  obtain ⟨s', hall', hkept, hfile, hmeta, -⟩ := writeAll_make hkeys checksum caller buf id
    fun _ => rfl
  obtain rfl : s' = s := Except.ok.inj (hall'.symm.trans hall)
  -- the entries of the blocks as records
  set pages : List (List (Record Bytes)) :=
    (splitBlocks [] kvs).map (map fun kv => ⟨kv.1, 0, kv.2⟩) with hpages
  have hblocks : pages.map pairs = splitBlocks [] kvs := by
    rw [hpages, map_map]
    refine (map_congr_left fun block _ => ?_).trans (map_id _)
    rw [Function.comp_apply, pairs, map_map]
    exact map_id block
  have hflat : (pages.map pairs).flatten = kvs := by
    rw [hblocks, splitBlocks_flatten, nil_append]
  have hne : ∀ page ∈ pages, page ≠ [] := by
    intro page hpage
    obtain ⟨block, hblock, rfl⟩ := mem_map.mp hpage
    exact fun hnil => pageOf_ne hfile block hblock (map_eq_nil_iff.mp hnil)
  have hsorted' : pages.flatten.Pairwise fun a b => a.key < b.key := by
    rw [← hflat, show pages.map pairs = pages.map (map fun r => (r.key, r.value)) from rfl,
      ← map_flatten, pairwise_map] at hsorted
    exact hsorted
  have hindex : metaIndexOf pages = s'.buffer.metaIndex := by
    rw [hmeta, ← hblocks, map_map]
    rfl
  have hend : s'.bytesWritten = 0 + pages.length * pageSizeInBytes := by
    rw [hkept.bytes, hfile.length_eq, hpages, length_map, Nat.zero_add]
  exact ⟨⟨pages, none, 0, s'.bytesWritten, hne, hsorted', .inl rfl, Nat.zero_mod _, hend, hbytes⟩,
    hflat, hindex, rfl, rfl⟩

end HedgeDB
