/-
HedgeDB/SstLookup.lean

Looking a key up in the pages of an SST (`src/db/sst.cc`, `create_super_index` of
`src/db/index_ops.cc`).

The meta index has the last key of each page, and a large one has a super index over
it, with the last key of every 128 entries.  `findPageId_super` says that the search
in two levels gives the page that the search in one level gives, and
`findInPage_eq` what is found in a page.  `lookupAsync_refines` puts them together:
the lookup in the pages is `Sst.lookupAsync` on the entries.

The checksum function is a parameter, and reading a page of the file succeeds.
-/
import HedgeDB.BlockFind
import HedgeDB.BlockWriter
import HedgeDB.Sst

namespace HedgeDB

open List hiding lookup_append lookup lookup_eq_some_iff
open KeyedList BinarySearch

variable {checksum : Bytes → UInt32}

/-! ### The page of a key -/

/-- `KEYS_PER_META_INDEX_PAGE`: a `key_t` has 32 bytes. -/
def keysPerMetaIndexPage : ℕ := pageSizeInBytes / 32

def superIndexEnableThreshold : ℕ := 16

def createSuperIndex (metaIndex : List Bytes) : List Bytes :=
  (range ((metaIndex.length + keysPerMetaIndexPage - 1) / keysPerMetaIndexPage)).map fun i =>
    metaIndex.getD (min ((i + 1) * keysPerMetaIndexPage - 1) (metaIndex.length - 1)) []

/-- The super index that `sst::load` builds: the same one, for a large meta index only. -/
def loadSuperIndex (metaIndex : List Bytes) : Option (List Bytes) :=
  if metaIndex.length > keysPerMetaIndexPage * superIndexEnableThreshold then
    some (createSuperIndex metaIndex)
  else none

/-- The part of the meta index that `_find_page_id` searches: its first position and the
one behind its last. -/
def metaIndexRange (metaIndex : List Bytes) (superIndex : Option (List Bytes)) (key : Bytes) :
    Option (ℕ × ℕ) :=
  match superIndex with
  | none => some (0, metaIndex.length)
  | some superIndex =>
      let metaIndexPageId := lowerBound superIndex key
      if metaIndexPageId = superIndex.length then none
      else
        let first := metaIndexPageId * keysPerMetaIndexPage
        let lastPageSize := metaIndex.length % keysPerMetaIndexPage
        if metaIndexPageId = superIndex.length - 1 ∧ lastPageSize ≠ 0 then
          some (first, first + lastPageSize)
        else some (first, first + keysPerMetaIndexPage)

def findPageId (metaIndex : List Bytes) (superIndex : Option (List Bytes)) (key : Bytes) :
    Option ℕ :=
  match metaIndexRange metaIndex superIndex key with
  | none => none
  | some (first, last) =>
      let it := first + lowerBound ((metaIndex.drop first).take (last - first)) key
      if it = metaIndex.length then none else some it

variable {superIndex : Option (List Bytes)}

section PageId

variable {metaIndex : List Bytes} {key : Bytes}

theorem findPageId_none :
    findPageId metaIndex none key =
      if lowerBound metaIndex key = metaIndex.length then none
      else some (lowerBound metaIndex key) := by
  simp [findPageId, metaIndexRange]

theorem length_createSuperIndex : (createSuperIndex metaIndex).length =
    (metaIndex.length + keysPerMetaIndexPage - 1) / keysPerMetaIndexPage := by
  rw [createSuperIndex, length_map, length_range]

/-- The entries of the super index are those of the meta index at the end of each group. -/
theorem getElem_createSuperIndex {i : ℕ} (hi : i < (createSuperIndex metaIndex).length) :
    ∃ h : min ((i + 1) * keysPerMetaIndexPage - 1) (metaIndex.length - 1) < metaIndex.length,
      (createSuperIndex metaIndex)[i] =
        metaIndex[min ((i + 1) * keysPerMetaIndexPage - 1) (metaIndex.length - 1)] := by
  have hlen := hi
  rw [length_createSuperIndex, show keysPerMetaIndexPage = 128 from rfl] at hlen
  have h : min ((i + 1) * keysPerMetaIndexPage - 1) (metaIndex.length - 1) < metaIndex.length := by
    omega
  refine ⟨h, ?_⟩
  simp only [createSuperIndex, getElem_map, getElem_range]
  exact getD_eq_getElem _ _ h

theorem createSuperIndex_sorted (hsorted : metaIndex.Pairwise (· < ·)) :
    (createSuperIndex metaIndex).Pairwise (· < ·) := by
  refine pairwise_iff_getElem.mpr fun i j hi hj hij => ?_
  obtain ⟨h₁, heq₁⟩ := getElem_createSuperIndex hi
  obtain ⟨h₂, heq₂⟩ := getElem_createSuperIndex hj
  rw [heq₁, heq₂]
  refine pairwise_iff_getElem.mp hsorted _ _ h₁ h₂ ?_
  rw [length_createSuperIndex] at hj
  rw [show keysPerMetaIndexPage = 128 from rfl] at hj ⊢
  omega

theorem lowerBound_createSuperIndex (hsorted : metaIndex.Pairwise (· < ·)) :
    let g := lowerBound (createSuperIndex metaIndex) key
    let n := lowerBound metaIndex key
    g = (createSuperIndex metaIndex).length ∧ n = metaIndex.length ∨
      g < (createSuperIndex metaIndex).length ∧ g * keysPerMetaIndexPage ≤ n ∧
        n < (g + 1) * keysPerMetaIndexPage ∧ n < metaIndex.length := by
  intro g n
  obtain ⟨hle, hspec⟩ := lowerBound_spec (k := key) hsorted
  obtain ⟨hle', hspec'⟩ := lowerBound_spec (k := key) (createSuperIndex_sorted hsorted)
  have hlen : (createSuperIndex metaIndex).length = _ := length_createSuperIndex
  -- what an entry of the super index tells about the position in the meta index
  have hgroup : ∀ i < (createSuperIndex metaIndex).length,
      min ((i + 1) * keysPerMetaIndexPage - 1) (metaIndex.length - 1) < n ↔ i < g := by
    intro i hi
    obtain ⟨h, heq⟩ := getElem_createSuperIndex hi
    rw [← hspec _ h, ← heq, hspec' _ hi]
  rw [show keysPerMetaIndexPage = 128 from rfl] at hlen hgroup ⊢
  by_cases hend : g = (createSuperIndex metaIndex).length
  · refine .inl ⟨hend, ?_⟩
    by_cases hnil : metaIndex.length = 0
    · omega
    · have := hgroup ((createSuperIndex metaIndex).length - 1) (by omega)
      omega
  · have hglt : g < (createSuperIndex metaIndex).length := by omega
    have hupper := hgroup g hglt
    refine .inr ⟨hglt, ?_, by omega, by omega⟩
    rcases hzero : g with - | g'
    · omega
    · have := hgroup g' (by omega)
      omega

theorem lowerBound_range (hsorted : metaIndex.Pairwise (· < ·)) {first n : ℕ}
    (hfirst : first ≤ lowerBound metaIndex key) (hlast : lowerBound metaIndex key < first + n) :
    first + lowerBound ((metaIndex.drop first).take n) key = lowerBound metaIndex key := by
  obtain ⟨hle, hspec⟩ := lowerBound_spec (k := key) hsorted
  have hbound : lowerBound ((metaIndex.drop first).take n) key =
      lowerBound metaIndex key - first := by
    refine lowerBound_eq hsorted.drop.take ?_ fun i hi => ?_
    · rw [length_take, length_drop]
      omega
    · rw [length_take, length_drop] at hi
      rw [getElem_take, getElem_drop, hspec _ (by omega)]
      omega
  omega

/-- **Two levels agree with one.** -/
theorem findPageId_super (hsorted : metaIndex.Pairwise (· < ·)) :
    findPageId metaIndex (some (createSuperIndex metaIndex)) key = findPageId metaIndex none key := by
  rw [findPageId_none, findPageId, metaIndexRange]
  rcases @lowerBound_createSuperIndex _ key hsorted with
    ⟨hend, hall⟩ | ⟨hlt, hfirst, hlast, hinside⟩
  · simp only [hend, if_true, hall]
  · have hlen : (createSuperIndex metaIndex).length = _ := length_createSuperIndex
    simp only [if_neg hlt.ne]
    split
    · next hnone => split at hnone <;> cases hnone
    · next first last hrange =>
      -- the range ends behind the position, also in a last group that is not full
      obtain ⟨rfl, hpos⟩ : first = lowerBound (createSuperIndex metaIndex) key *
          keysPerMetaIndexPage ∧ lowerBound metaIndex key < first + (last - first) := by
        rw [show keysPerMetaIndexPage = 128 from rfl] at hlen hlast hrange hfirst ⊢
        split at hrange <;> cases hrange <;> exact ⟨rfl, by omega⟩
      rw [lowerBound_range hsorted hfirst hpos]

theorem findPageId_eq (hsorted : metaIndex.Pairwise (· < ·))
    (hsuper : superIndex = none ∨ superIndex = some (createSuperIndex metaIndex) ∨
      superIndex = loadSuperIndex metaIndex) :
    findPageId metaIndex superIndex key = findPageId metaIndex none key := by
  rcases hsuper with rfl | rfl | rfl
  · rfl
  · exact findPageId_super hsorted
  · rw [loadSuperIndex]
    split
    · exact findPageId_super hsorted
    · rfl

end PageId

/-! ### The pages -/

/-- A page holds the entries of a block: the encoder left it for them, and it reads back as
them. -/
structure PageHolds (checksum : Bytes → UInt32) (page : Bytes) (block : List (Bytes × Bytes)) :
    Prop where
  written : ∃ buf : Bytes, buf.length = pageSizeInBytes ∧
    let r := (BlockEncoder.reset buf).pushAll checksum blockConfig block
    r.1 = block ∧ page = (r.2.commit checksum blockConfig).page
  entries : (BlockDecoder.reset blockConfig page).entries blockConfig = some block

/-- `to_hex_string`: two digits for each byte and a dash behind every second one. -/
def hexDigitsFrom : ℕ → Bytes → List Char
  | _, [] => []
  | i, b :: rest =>
      Nat.digitChar (b.toNat / 16) :: Nat.digitChar (b.toNat % 16) ::
        (if rest ≠ [] ∧ i % 2 = 1 then '-' :: hexDigitsFrom (i + 1) rest
        else hexDigitsFrom (i + 1) rest)

/-- `sst::_find_in_page`.  It has no result if the search leaves the page. -/
def findInPage (checksum : Bytes → UInt32) (key page : Bytes) : Option (Expected Value) :=
  let reader := BlockDecoder.reset blockConfig page
  match reader.sanityCheck checksum blockConfig with
  | .error _ =>
      some (.error { msg := "checksum mismatch for key " ++ String.ofList (hexDigitsFrom 0 key) })
  | .ok _ => do
      let value ← reader.find blockConfig key
      if value = [] then some (.error { msg := "", code := .keyNotFound })
      else some (valueFromSpan value)

/-- `sst::lookup_async` on the pages of the index. -/
def lookupPages (checksum : Bytes → UInt32) (pages metaIndex : List Bytes)
    (superIndex : Option (List Bytes)) (key : Bytes) : Option (Expected Value) :=
  match findPageId metaIndex superIndex key with
  | none => some (.error { msg := "", code := .keyNotFound })
  | some pageId => do
      let page ← pages[pageId]?
      findInPage checksum key page

section Pages

variable {page key : Bytes} {block : List (Bytes × Bytes)}

theorem PageHolds.length (h : PageHolds checksum page block) : page.length = pageSizeInBytes := by
  obtain ⟨⟨buf, hbuf, -, rfl⟩, -⟩ := h
  have hreset : BlockWrote blockConfig [] _ := wrote_reset (s := 2) rfl rfl hbuf
  obtain ⟨e, henc, -, -, -, hpage⟩ :=
    (hreset.pushAll checksum (by decide : 1 ≤ 2) rfl rfl block).1
  rw [hpage]
  exact (commit_spec checksum henc).1.length

/-- A page passes its check and answers as the entries of a block do. -/
def PageFinds (checksum : Bytes → UInt32) (page : Bytes) (block : List (Bytes × Bytes)) : Prop :=
  (BlockDecoder.reset blockConfig page).sanityCheck checksum blockConfig = .ok () ∧
    ∀ key, (BlockDecoder.reset blockConfig page).find blockConfig key = some (valueOf block key)

theorem BlockPage.finds (hpage : BlockPage checksum blockConfig page block)
    (hsorted : block.Pairwise fun a b => a.1 < b.1)
    (hkeys : ∀ kv ∈ block, 1 ≤ kv.1.length ∧ kv.1.length ≤ maxKeyLen)
    (hread : Readable blockConfig 0 [] block) : PageFinds checksum page block := by
  refine ⟨?_, find_spec (s := 2) checksum rfl rfl (by decide) hpage hsorted hkeys hread⟩
  obtain ⟨e, henc, -, -, -, hpage'⟩ := hpage
  rw [hpage']
  exact sanityCheck_commit checksum henc

theorem PageHolds.finds (h : PageHolds checksum page block)
    (hsorted : block.Pairwise fun a b => a.1 < b.1) : PageFinds checksum page block := by
  obtain ⟨⟨buf, hbuf, haccepted, rfl⟩, hentries⟩ := h
  have hreset : BlockWrote blockConfig [] _ := wrote_reset (s := 2) rfl rfl hbuf
  obtain ⟨hpage, hkeys⟩ := hreset.pushAll checksum (by decide : 1 ≤ 2) rfl rfl block
  rw [nil_append, haccepted] at hpage
  rw [haccepted] at hkeys
  have hread : Readable blockConfig 0 [] block := by
    obtain ⟨e, henc, hcount, -, -, hpage'⟩ := hpage
    refine (entries_eq_iff (s := 2) checksum rfl rfl henc hcount hkeys (hsorted.imp ne_of_lt)).mp ?_
    rw [← hpage']
    exact hentries
  exact hpage.finds hsorted hkeys hread

theorem findInPage_eq (h : PageFinds checksum page block) (key : Bytes) :
    findInPage checksum key page =
      if valueOf block key = [] then some (.error { msg := "", code := .keyNotFound })
      else some (valueFromSpan (valueOf block key)) := by
  simp only [findInPage, h.1, h.2, Option.bind_eq_bind, Option.bind_some]

end Pages

/-! ### The page that holds a key -/

section Blocks

variable {blocks : List (List (Bytes × Bytes))} {block : List (Bytes × Bytes)} {key : Bytes}

theorem lastKey_spec (hne : block ≠ []) (hsorted : block.Pairwise fun a b => a.1 < b.1) :
    (∃ kv ∈ block, kv.1 = lastKey block) ∧ ∀ kv ∈ block, kv.1 ≤ lastKey block := by
  obtain ⟨init, last, rfl⟩ : ∃ init last, block = init ++ [last] := by
    simpa only [concat_eq_append] using (eq_nil_or_concat block).resolve_left hne
  rw [lastKey_concat init last.1 last.2]
  refine ⟨⟨last, by simp, rfl⟩, fun kv hkv => ?_⟩
  rcases mem_append.mp hkv with hinit | hlast
  · exact ((pairwise_append.mp hsorted).2.2 kv hinit last (mem_singleton_self _)).le
  · rw [mem_singleton.mp hlast]

theorem map_lastKey_sorted (hne : ∀ block ∈ blocks, block ≠ [])
    (hsorted : blocks.flatten.Pairwise fun a b => a.1 < b.1) :
    (blocks.map lastKey).Pairwise (· < ·) := by
  obtain ⟨hinner, houter⟩ := pairwise_flatten.mp hsorted
  refine pairwise_map.mpr (houter.imp_of_mem fun {a b} ha hb hab => ?_)
  obtain ⟨⟨x, hx, hlast⟩, -⟩ := lastKey_spec (hne a ha) (hinner a ha)
  obtain ⟨⟨y, hy, hlast'⟩, -⟩ := lastKey_spec (hne b hb) (hinner b hb)
  rw [← hlast, ← hlast']
  exact hab x hx y hy

theorem findPageId_findIdx (hsorted : (blocks.map lastKey).Pairwise (· < ·)) (key : Bytes) :
    findPageId (blocks.map lastKey) none key =
      blocks.findIdx? fun block => decide (key ≤ lastKey block) := by
  obtain ⟨hle, hspec⟩ := lowerBound_spec (k := key) hsorted
  simp only [length_map, getElem_map] at hle hspec
  rw [findPageId_none, length_map]
  split
  · next hall =>
    refine (findIdx?_eq_none_iff.mpr fun block hblock => ?_).symm
    obtain ⟨i, hi, rfl⟩ := getElem_of_mem hblock
    rw [decide_eq_false_iff_not, not_le, hspec i hi, hall]
    exact hi
  · next hsome =>
    have hlt : lowerBound (blocks.map lastKey) key < blocks.length := by omega
    refine (findIdx?_eq_some_iff_getElem.mpr ⟨hlt, ?_, fun j hj => ?_⟩).symm
    · rw [decide_eq_true_eq, ← not_lt, hspec _ hlt]
      exact Nat.lt_irrefl _
    · rw [Bool.not_eq_true, decide_eq_false_iff_not, not_le, hspec j (hj.trans hlt)]
      exact hj

/-- The entries under a key are all in the first block whose last key is not less. -/
theorem lookup_flatten (hne : ∀ block ∈ blocks, block ≠ [])
    (hsorted : blocks.flatten.Pairwise fun a b => a.1 < b.1) (key : Bytes) :
    match blocks.findIdx? fun block => decide (key ≤ lastKey block) with
    | none => ∀ kv ∈ blocks.flatten, kv.1 ≠ key
    | some i => ∃ block, blocks[i]? = some block ∧
        lookup Prod.fst blocks.flatten key = lookup Prod.fst block key := by
  obtain ⟨hinner, -⟩ := pairwise_flatten.mp hsorted
  have hbefore : ∀ block ∈ blocks, lastKey block < key → ∀ kv ∈ block, kv.1 ≠ key :=
    fun block hblock hlt kv hkv =>
      (((lastKey_spec (hne block hblock) (hinner block hblock)).2 kv hkv).trans_lt hlt).ne
  rcases hidx : blocks.findIdx? (fun block => decide (key ≤ lastKey block)) with - | i
  · intro kv hkv
    obtain ⟨block, hblock, hkv'⟩ := mem_flatten.mp hkv
    refine hbefore block hblock ?_ kv hkv'
    simpa using findIdx?_eq_none_iff.mp hidx block hblock
  · obtain ⟨hlt, hle, hfirst⟩ := findIdx?_eq_some_iff_getElem.mp hidx
    rw [decide_eq_true_eq] at hle
    refine ⟨blocks[i], getElem?_eq_getElem hlt, ?_⟩
    have hmem := getElem_mem hlt
    obtain ⟨⟨last, hlast, hkey⟩, -⟩ := lastKey_spec (hne _ hmem) (hinner _ hmem)
    have hsplit : blocks.flatten =
        (blocks.take i).flatten ++ (blocks[i] ++ (blocks.drop (i + 1)).flatten) := by
      rw [← flatten_cons, ← drop_eq_getElem_cons hlt, ← flatten_append, take_append_drop]
    -- the blocks before end before the key, the blocks behind start behind it
    have hnone : lookup Prod.fst (blocks.take i).flatten key = none := by
      refine lookup_eq_none_iff.mpr fun kv hkv => ?_
      obtain ⟨block, hblock, hkv'⟩ := mem_flatten.mp hkv
      obtain ⟨j, hj, rfl⟩ := mem_take_iff_getElem.mp hblock
      refine hbefore _ (getElem_mem _) ?_ kv hkv'
      simpa using hfirst j (by omega)
    have hnone' : lookup Prod.fst (blocks.drop (i + 1)).flatten key = none := by
      refine lookup_eq_none_iff.mpr fun kv hkv => ?_
      rw [hsplit] at hsorted
      have hbehind := (pairwise_append.mp (pairwise_append.mp hsorted).2.1).2.2
      exact ((hle.trans hkey.ge).trans_lt (hbehind last hlast kv hkv)).ne'
    rw [hsplit, lookup_append, hnone, Option.none_or, lookup_append, hnone', Option.or_none]

theorem findInPage_of_findPageId {pages : List Bytes}
    (hpages : List.Forall₂ (PageFinds checksum) pages blocks) (hne : ∀ block ∈ blocks, block ≠ [])
    (hsorted : blocks.flatten.Pairwise fun a b => a.1 < b.1)
    (hsuper : superIndex = none ∨ superIndex = some (createSuperIndex (blocks.map lastKey)) ∨
      superIndex = loadSuperIndex (blocks.map lastKey)) (key : Bytes) :
    match findPageId (blocks.map lastKey) superIndex key with
    | none => ∀ kv ∈ blocks.flatten, kv.1 ≠ key
    | some pageId => ∃ page, pages[pageId]? = some page ∧
        findInPage checksum key page =
          if valueOf blocks.flatten key = [] then some (.error { msg := "", code := .keyNotFound })
          else some (valueFromSpan (valueOf blocks.flatten key)) := by
  have hindex := map_lastKey_sorted hne hsorted
  have hblock := lookup_flatten hne hsorted key
  rw [findPageId_eq hindex hsuper, findPageId_findIdx hindex key]
  rcases hidx : blocks.findIdx? (fun block => decide (key ≤ lastKey block)) with - | pageId
  · rwa [hidx] at hblock
  · rw [hidx] at hblock
    obtain ⟨block, hat, hlookup⟩ := hblock
    obtain ⟨hlt, rfl⟩ := List.getElem?_eq_some_iff.mp hat
    have hlt' : pageId < pages.length := hpages.length_eq ▸ hlt
    have hfinds := (forall₂_iff_get.mp hpages).2 pageId hlt' hlt
    have hvalue : valueOf blocks[pageId] key = valueOf blocks.flatten key := by
      rw [valueOf, valueOf, hlookup]
    refine ⟨pages[pageId], List.getElem?_eq_getElem hlt', ?_⟩
    rw [← hvalue]
    exact findInPage_eq hfinds key

theorem forall₂_pageFinds {pages : List Bytes}
    (hpages : Forall₂ (PageHolds checksum) pages blocks)
    (hsorted : blocks.flatten.Pairwise fun a b => a.1 < b.1) :
    Forall₂ (PageFinds checksum) pages blocks := by
  obtain ⟨hlength, hholds⟩ := forall₂_iff_get.mp hpages
  exact forall₂_iff_get.mpr ⟨hlength, fun i hi hi' =>
    (hholds i hi hi').finds ((pairwise_flatten.mp hsorted).1 _ (get_mem _ _))⟩

/-- **Point lookup in an SST is exact**, with any of its super indexes: the page is the first
one whose last key is not less than the key, and what is found in it is the value of the key,
or nothing if the SST does not have the key. -/
theorem sst_lookup_exact (checksum : Bytes → UInt32) (pages : List Bytes)
    (blocks : List (List (Bytes × Bytes))) (metaIndex : List Bytes)
    (superIndex : Option (List Bytes)) (hpages : Forall₂ (PageHolds checksum) pages blocks)
    (hne : ∀ block ∈ blocks, block ≠ [])
    (hsorted : blocks.flatten.Pairwise fun a b => a.1 < b.1)
    (hmeta : metaIndex = blocks.map lastKey)
    (hsuper : superIndex = none ∨ superIndex = some (createSuperIndex metaIndex) ∨
      superIndex = loadSuperIndex metaIndex) (key : Bytes) :
    findPageId metaIndex superIndex key =
        (blocks.findIdx? fun block => decide (key ≤ lastKey block)) ∧
      findPageId metaIndex superIndex key = findPageId metaIndex none key ∧
      match findPageId metaIndex superIndex key with
      | none => ∀ value, (key, value) ∉ blocks.flatten
      | some pageId => ∃ page, pages[pageId]? = some page ∧
          (∀ encoded value, (key, encoded) ∈ blocks.flatten → valueFromSpan encoded = .ok value →
            findInPage checksum key page = some (.ok value)) ∧
          ((∀ encoded, (key, encoded) ∉ blocks.flatten) →
            findInPage checksum key page = some (.error { msg := "", code := .keyNotFound })) := by
  subst hmeta
  have hindex := map_lastKey_sorted hne hsorted
  have hone : findPageId _ superIndex key = _ := findPageId_eq hindex hsuper
  refine ⟨hone.trans (findPageId_findIdx hindex key), hone, ?_⟩
  have hpage := findInPage_of_findPageId (forall₂_pageFinds hpages hsorted) hne hsorted hsuper key
  rcases hid : findPageId (blocks.map lastKey) superIndex key with - | pageId
  · rw [hid] at hpage
    exact fun value hmem => hpage _ hmem rfl
  · rw [hid] at hpage
    obtain ⟨page, hat, hfind⟩ := hpage
    refine ⟨page, hat, fun encoded value hmem hvalue => ?_, fun hnone => ?_⟩
    · have hencoded : valueOf blocks.flatten key = encoded := by
        rw [valueOf, (lookup_eq_some_iff hsorted).mpr ⟨hmem, rfl⟩]
        rfl
      -- bytes that decode have a type byte
      have hnonempty : encoded ≠ [] := by
        rintro rfl
        cases hvalue
      rw [hfind, hencoded, if_neg hnonempty, hvalue]
    · rw [hfind, if_pos (valueOf_of_not_mem ?_)]
      rintro ⟨k, v⟩ hkv rfl
      exact hnone v hkv

theorem lookupPages_eq {pages : List Bytes}
    (hpages : Forall₂ (PageFinds checksum) pages blocks) (hne : ∀ block ∈ blocks, block ≠ [])
    (hsorted : blocks.flatten.Pairwise fun a b => a.1 < b.1)
    (hsuper : superIndex = none ∨ superIndex = some (createSuperIndex (blocks.map lastKey)) ∨
      superIndex = loadSuperIndex (blocks.map lastKey)) {sst : Sst Bytes}
    (hsst : sst.entries.map (fun r => (r.key, r.value)) = blocks.flatten) (key : Bytes) :
    lookupPages checksum pages (blocks.map lastKey) superIndex key = some (sst.lookupAsync key) := by
  have hvalue : valueOf blocks.flatten key = ((sst.find key).map Record.value).getD [] := by
    rw [valueOf, ← hsst, lookup_map, Option.map_map]
    rfl
  have hentries : some (sst.lookupAsync key) =
      if valueOf blocks.flatten key = [] then some (.error { msg := "", code := .keyNotFound })
      else some (valueFromSpan (valueOf blocks.flatten key)) := by
    rw [hvalue, Sst.lookupAsync]
    cases sst.find key with
    | none => rfl
    | some r => exact apply_ite some _ _ _
  have hpage := findInPage_of_findPageId hpages hne hsorted hsuper key
  rw [hentries, lookupPages]
  rcases hid : findPageId (blocks.map lastKey) superIndex key with - | pageId
  · rw [hid] at hpage
    exact (if_pos (valueOf_of_not_mem hpage)).symm
  · rw [hid] at hpage
    obtain ⟨page, hat, hfind⟩ := hpage
    simp only [hat, Option.bind_eq_bind, Option.bind_some, hfind]

/-- The lookup in the pages is the lookup in the entries of the SST. -/
theorem lookupAsync_refines {pages : List Bytes}
    (hpages : Forall₂ (PageHolds checksum) pages blocks) (hne : ∀ block ∈ blocks, block ≠ [])
    (hsorted : blocks.flatten.Pairwise fun a b => a.1 < b.1)
    (hsuper : superIndex = none ∨ superIndex = some (createSuperIndex (blocks.map lastKey)) ∨
      superIndex = loadSuperIndex (blocks.map lastKey)) {sst : Sst Bytes}
    (hsst : sst.entries.map (fun r => (r.key, r.value)) = blocks.flatten) (key : Bytes) :
    lookupPages checksum pages (blocks.map lastKey) superIndex key = some (sst.lookupAsync key) :=
  lookupPages_eq (forall₂_pageFinds hpages hsorted) hne hsorted hsuper hsst key

end Blocks

/-- The page of a block whose entries are all accepted and whose lengths survive. -/
theorem pageHolds_of_readable {buf : Bytes} (hbuf : buf.length = pageSizeInBytes)
    {block : List (Bytes × Bytes)} (hsorted : block.Pairwise fun a b => a.1 < b.1)
    (hkeys : ∀ kv ∈ block, 1 ≤ kv.1.length ∧ kv.1.length ≤ maxKeyLen)
    (haccepted : ((BlockEncoder.reset buf).pushAll checksum blockConfig block).1 = block)
    (hread : Readable blockConfig 0 [] block) :
    PageHolds checksum (((BlockEncoder.reset buf).pushAll checksum blockConfig block).2.commit
      checksum blockConfig).page block := by
  refine ⟨⟨buf, hbuf, haccepted, rfl⟩, ?_⟩
  have hiff := (accepted_entries_eq_iff (s := 2) checksum (by decide) hbuf hsorted hkeys).1
  have hentries := hiff.mpr (by
    show Readable blockConfig 0 [] ((BlockEncoder.reset buf).pushAll checksum blockConfig block).1
    rwa [haccepted])
  exact hentries.trans (congrArg some haccepted)

/-- Two pages of an SST. -/
def lookupBlocks : List (List (Bytes × Bytes)) :=
  [[([1], [1, 7]), ([2], [1, 8])], [([4], [1, 9])]]

def encodePage (block : List (Bytes × Bytes)) : Bytes :=
  (((BlockEncoder.reset (replicate pageSizeInBytes 0)).pushAll (fun _ => 0) blockConfig
    block).2.commit (fun _ => 0) blockConfig).page

theorem lookupBlocks_hold :
    Forall₂ (PageHolds fun _ => 0) (lookupBlocks.map encodePage) lookupBlocks := by
  refine .cons ?_ (.cons ?_ .nil)
  · exact pageHolds_of_readable length_replicate (by decide) (by decide) (by decide +kernel)
      (by decide)
  · exact pageHolds_of_readable length_replicate (by decide) (by decide) (by decide +kernel)
      (by decide)

theorem sst_lookup_exact_two_pages :
    findPageId [[2], [4]] (some (createSuperIndex [[2], [4]])) [4] = some 1 ∧
      findInPage (fun _ => 0) [4] (encodePage [([4], [1, 9])]) = some (.ok (.bytes [9])) := by
  obtain ⟨hid, -, hpage⟩ := sst_lookup_exact (fun _ => 0) _ lookupBlocks [[2], [4]]
    (some (createSuperIndex [[2], [4]])) lookupBlocks_hold (by decide) (by decide) rfl
    (.inr (.inl rfl)) [4]
  have hone : findPageId [[2], [4]] (some (createSuperIndex [[2], [4]])) [4] = some 1 :=
    hid.trans (by decide)
  rw [hone] at hpage
  obtain ⟨page, hat, hfind, -⟩ := hpage
  obtain rfl : encodePage [([4], [1, 9])] = page := Option.some.inj hat
  exact ⟨hone, hfind [1, 9] (.bytes [9]) (by decide) rfl⟩

theorem lookupAsync_refines_two_pages :
    lookupPages (fun _ => 0) (lookupBlocks.map encodePage) (lookupBlocks.map lastKey) none [4] =
      some (Sst.lookupAsync (K := Bytes) ⟨0, 0, 0, 0, 0,
        [⟨[1], 0, [1, 7]⟩, ⟨[2], 0, [1, 8]⟩, ⟨[4], 0, [1, 9]⟩]⟩ [4]) :=
  lookupAsync_refines lookupBlocks_hold (by decide) (by decide) (.inl rfl) rfl [4]

end HedgeDB
