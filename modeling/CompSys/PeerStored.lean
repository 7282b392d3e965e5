import CompSys.CString
import CompSys.PeerBlocks
import Mathlib.Data.List.GetD

/-!
# The file that the C client of A4 stores

`send_message` writes each payload at its place into the file that is there, with a function for
strings. What is behind a NUL of a block does not get into the file, and what the file holds
already stays where nothing is written.
-/
namespace CompSys.PeerClient

open Peer

/-- The byte is not written: it is a NUL, or one stands in front of it in its block. -/
def Hidden (content : Bytes) (p : ℕ) : Prop :=
  ∃ q ≤ p, q / sendableLength = p / sendableLength ∧ content[q]? = some 0

instance (content : Bytes) (p : ℕ) : Decidable (Hidden content p) :=
  inferInstanceAs (Decidable (∃ q, q ≤ p ∧ _))

/-- The size of the file is an int, what is hidden is in the old one already, and nothing of that one
sticks out. -/
structure Restorable (content prior : Bytes) : Prop where
  small : content.length < 2 ^ 31
  short : prior.length ≤ content.length
  hidden : ∀ p < content.length, Hidden content p → prior.getD p 0 = content.getD p 0
  long : prior.length = content.length ∨ ¬Hidden content (content.length - 1)

/-! ## Writing -/

section Write

/-- Where a block is written. -/
def place (block : ℕ × Bytes) : ℕ := block.1 * (MAX_MSG_LEN - REPLY_HEADER_LEN) % 4294967296

/-- What of it is written. -/
def visible (block : ℕ × Bytes) : Bytes := block.2.takeWhile fun b => b ≠ 0

def Covers (block : ℕ × Bytes) (p : ℕ) : Prop :=
  place block ≤ p ∧ p < place block + (visible block).length

instance (block : ℕ × Bytes) (p : ℕ) : Decidable (Covers block p) :=
  inferInstanceAs (Decidable (_ ∧ _))

/-- The front part of a file that has been filled up. -/
theorem getD_front (file : Bytes) {offset p : ℕ} (h : p < offset) :
    (file.take offset ++ List.replicate (offset - file.length) 0).getD p 0 = file.getD p 0 := by
  by_cases hp : p < file.length
  · rw [List.getD_append _ _ _ _ (by rw [List.length_take]; omega), List.getD_eq_getElem?_getD,
      List.getElem?_take_of_lt h, List.getD_eq_getElem?_getD]
  · rw [List.getD_append_right _ _ _ _ (by rw [List.length_take]; omega),
      List.getD_eq_default _ _ (Nat.le_of_not_lt hp), List.getD_eq_getElem?_getD,
      List.getElem?_replicate]
    split <;> rfl

theorem length_front (file : Bytes) (offset : ℕ) :
    (file.take offset ++ List.replicate (offset - file.length) (0 : UInt8)).length = offset := by
  rw [List.length_append, List.length_take, List.length_replicate]
  omega

theorem getD_writeAt (file data : Bytes) (offset p : ℕ) :
    (writeAt file offset data).getD p 0 =
      if offset ≤ p ∧ p < offset + data.length then data.getD (p - offset) 0
      else file.getD p 0 := by
  have hfront := length_front file offset
  rw [writeAt]
  by_cases hdata : data = []
  · rw [if_pos hdata, if_neg]
    rw [hdata, List.length_nil]
    omega
  · rw [if_neg hdata]
    rcases Nat.lt_or_ge p offset with hp | hp
    · rw [if_neg (by omega), List.append_assoc, List.getD_append _ _ _ _ (by omega),
        getD_front file hp]
    · rcases Nat.lt_or_ge p (offset + data.length) with hp' | hp'
      · rw [if_pos ⟨hp, hp'⟩, List.getD_append _ _ _ _ (by rw [List.length_append]; omega),
          List.getD_append_right _ _ _ _ (by omega), hfront]
      · rw [if_neg (by omega),
          List.getD_append_right _ _ _ _ (by rw [List.length_append]; omega),
          List.length_append, hfront, List.getD_eq_getElem?_getD, List.getElem?_drop,
          List.getD_eq_getElem?_getD, Nat.add_sub_cancel' hp']

theorem lt_length_writeAt (file data : Bytes) (offset p : ℕ) :
    p < (writeAt file offset data).length ↔
      p < file.length ∨ ∃ q, p ≤ q ∧ offset ≤ q ∧ q < offset + data.length := by
  have hfront := length_front file offset
  have hsome : (∃ q, p ≤ q ∧ offset ≤ q ∧ q < offset + data.length) ↔
      data ≠ [] ∧ p < offset + data.length := by
    rw [← List.length_pos_iff]
    constructor
    · intro ⟨q, hpq, hoffset, hq⟩
      omega
    · intro ⟨hpos, hp⟩
      exact ⟨offset + data.length - 1, by omega, by omega, by omega⟩
  rw [hsome, writeAt]
  by_cases hdata : data = []
  · rw [if_pos hdata]
    exact (or_iff_left fun h => h.1 hdata).symm
  · rw [if_neg hdata, List.length_append, List.length_append, hfront, List.length_drop,
      and_iff_right hdata]
    omega

theorem stored_cons (prior : Bytes) (block : ℕ × Bytes) (blocks : List (ℕ × Bytes)) :
    stored prior (block :: blocks) =
      stored (writeAt prior (place block) (visible block)) blocks := rfl

/-- The order of the blocks makes no difference: each byte of the content has its place. -/
theorem getD_stored {content : Bytes} {blocks : List (ℕ × Bytes)}
    (hblocks : ∀ block ∈ blocks, ∀ p, Covers block p →
      (visible block).getD (p - place block) 0 = content.getD p 0) (prior : Bytes) (p : ℕ) :
    (stored prior blocks).getD p 0 =
      if ∃ block ∈ blocks, Covers block p then content.getD p 0 else prior.getD p 0 := by
  induction blocks generalizing prior with
  | nil =>
    rw [if_neg (by simp)]
    rfl
  | cons block blocks ih =>
    rw [List.forall_mem_cons] at hblocks
    have hwrite : (writeAt prior (place block) (visible block)).getD p 0 =
        if Covers block p then (visible block).getD (p - place block) 0 else prior.getD p 0 :=
      getD_writeAt prior (visible block) (place block) p
    rw [stored_cons, ih hblocks.2, hwrite]
    simp only [List.exists_mem_cons_iff]
    by_cases hlater : ∃ block ∈ blocks, Covers block p
    · rw [if_pos hlater, if_pos (.inr hlater)]
    · rw [if_neg hlater]
      by_cases hcovers : Covers block p
      · rw [if_pos hcovers, if_pos (.inl hcovers), hblocks.1 p hcovers]
      · rw [if_neg hcovers, if_neg (not_or.mpr ⟨hcovers, hlater⟩)]

theorem lt_length_stored (prior : Bytes) (blocks : List (ℕ × Bytes)) (p : ℕ) :
    p < (stored prior blocks).length ↔
      p < prior.length ∨ ∃ q, p ≤ q ∧ ∃ block ∈ blocks, Covers block q := by
  induction blocks generalizing prior with
  | nil => simp [stored]
  | cons block blocks ih =>
    rw [stored_cons, ih, lt_length_writeAt, or_assoc]
    refine or_congr_right ?_
    simp only [List.exists_mem_cons_iff, and_or_left, exists_or]
    rfl

end Write

/-! ## The blocks of a content -/

section Content

variable {content : Bytes}

/-- Each block of a content is cut out of it. -/
theorem makeBlocks_piece {block : ℕ × Bytes} (hblock : block ∈ (makeBlocks content).2) :
    block.2 = (content.drop (block.1 * sendableLength)).take sendableLength := by
  rw [makeBlocks] at hblock
  split at hblock
  case isTrue hempty =>
    rw [List.eq_nil_of_length_eq_zero hempty, splitLoop_cuts.nil] at hblock
    rw [List.mem_singleton.mp hblock, List.eq_nil_of_length_eq_zero hempty]
    rfl
  case isFalse hne => exact (splitLoop_cuts.pieces sendableLength_pos content 0 block hblock).2

theorem exists_block {p : ℕ} (hp : p < content.length) :
    ∃ block ∈ (makeBlocks content).2, block.1 = p / sendableLength := by
  have hnumber : p / sendableLength < (makeBlocks content).1 := by
    have hsendable : sendableLength = 8116 := rfl
    rw [makeBlocks_count, hsendable]
    omega
  rw [← List.mem_range, ← (makeBlocks_splits content).numbers] at hnumber
  exact List.mem_map.mp hnumber

theorem getElem?_piece {block : ℕ × Bytes} (hblock : block ∈ (makeBlocks content).2) {i : ℕ}
    (hi : i < sendableLength) : block.2[i]? = content[block.1 * sendableLength + i]? := by
  rw [makeBlocks_piece hblock, List.getElem?_take_of_lt hi, List.getElem?_drop]

/-- There is no overflow in the place of a block. -/
theorem place_eq (hsmall : content.length < 2 ^ 31) {block : ℕ × Bytes}
    (hblock : block ∈ (makeBlocks content).2) : place block = block.1 * sendableLength := by
  have hnumber := (makeBlocks_splits content).number_lt hblock
  have hcount := makeBlocks_count content
  have hsendable : sendableLength = 8116 := rfl
  have hmax : MAX_MSG_LEN - REPLY_HEADER_LEN = 8116 := rfl
  rw [place, hmax, hsendable]
  exact Nat.mod_eq_of_lt (by omega)

theorem length_piece {block : ℕ × Bytes} (hblock : block ∈ (makeBlocks content).2) :
    block.2.length = min sendableLength (content.length - block.1 * sendableLength) := by
  rw [makeBlocks_piece hblock, List.length_take, List.length_drop]

/-- What is written is all that is not hidden. -/
theorem covers_iff (hsmall : content.length < 2 ^ 31) {block : ℕ × Bytes}
    (hblock : block ∈ (makeBlocks content).2) (p : ℕ) :
    Covers block p ↔ block.1 = p / sendableLength ∧ p < content.length ∧ ¬Hidden content p := by
  have hsendable : sendableLength = 8116 := rfl
  have hpiece : ∀ i < 8116, block.2[i]? = content[block.1 * 8116 + i]? :=
    fun i hi => getElem?_piece hblock hi
  have hlength := length_piece hblock
  rw [Covers, place_eq hsmall hblock, Hidden]
  simp only [hsendable] at hlength ⊢
  constructor
  · intro ⟨hle, hlt⟩
    obtain ⟨hr, hvisible⟩ := (CString.lt_length_cString block.2 (p - block.1 * 8116)).mp
      (Nat.sub_lt_left_of_lt_add hle hlt)
    refine ⟨by omega, by omega, ?_⟩
    intro ⟨q, hqp, hsame, hzero⟩
    refine hvisible (q - block.1 * 8116) (by omega) ?_
    rw [hpiece _ (by omega), Nat.add_sub_cancel' (by omega)]
    exact hzero
  · intro ⟨hnumber, hp, hhidden⟩
    have hvisible : p - block.1 * 8116 < (visible block).length := by
      refine (CString.lt_length_cString block.2 _).mpr ⟨by omega, ?_⟩
      intro i hi hzero
      rw [hpiece i (by omega)] at hzero
      exact hhidden ⟨block.1 * 8116 + i, by omega, by omega, hzero⟩
    omega

theorem visible_getD (hsmall : content.length < 2 ^ 31) {block : ℕ × Bytes}
    (hblock : block ∈ (makeBlocks content).2) (p : ℕ) (h : Covers block p) :
    (visible block).getD (p - place block) 0 = content.getD p 0 := by
  have hplace := place_eq hsmall hblock
  have hle : place block ≤ p := h.1
  have hlt : p - place block < (visible block).length := Nat.sub_lt_left_of_lt_add hle h.2
  have hfront : visible block <+: block.2 := List.takeWhile_prefix _
  have hsize := hfront.length_le.trans ((makeBlocks_splits content).sizes block hblock)
  rw [List.getD_eq_getElem?_getD, List.prefix_iff_eq_take.mp hfront,
    List.getElem?_take_of_lt hlt, getElem?_piece hblock (hlt.trans_le hsize), ← hplace,
    Nat.add_sub_cancel' hle, List.getD_eq_getElem?_getD]

theorem exists_covers_iff (hsmall : content.length < 2 ^ 31) {blocks : List (ℕ × Bytes)}
    (hblocks : blocks.Perm (makeBlocks content).2) (p : ℕ) :
    (∃ block ∈ blocks, Covers block p) ↔ p < content.length ∧ ¬Hidden content p := by
  constructor
  · intro ⟨block, hblock, hcovers⟩
    exact ((covers_iff hsmall (hblocks.mem_iff.mp hblock) p).mp hcovers).2
  · intro h
    obtain ⟨block, hblock, hnumber⟩ := exists_block h.1
    exact ⟨block, hblocks.mem_iff.mpr hblock, (covers_iff hsmall hblock p).mpr ⟨hnumber, h⟩⟩

/-- The file becomes the content exactly if the old one allows it. -/
theorem stored_eq_iff (hsmall : content.length < 2 ^ 31) {blocks : List (ℕ × Bytes)}
    (hblocks : blocks.Perm (makeBlocks content).2) (prior : Bytes) :
    stored prior blocks = content ↔ Restorable content prior := by
  have hcovers := exists_covers_iff hsmall hblocks
  have hgetD : ∀ p, (stored prior blocks).getD p 0 =
      if ∃ block ∈ blocks, Covers block p then content.getD p 0 else prior.getD p 0 :=
    getD_stored (fun block hblock => visible_getD hsmall (hblocks.mem_iff.mp hblock)) prior
  have hlt := lt_length_stored prior blocks
  constructor
  · intro hstored
    rw [hstored] at hgetD hlt
    have hshort : prior.length ≤ content.length := by
      by_contra hlonger
      exact absurd ((hlt content.length).mpr (.inl (Nat.lt_of_not_le hlonger))) (Nat.lt_irrefl _)
    refine ⟨hsmall, hshort, fun p hp hhidden => ?_, ?_⟩
    · rw [hgetD p, if_neg fun h => ((hcovers p).mp h).2 hhidden]
    · by_cases hempty : content.length = 0
      · exact .inl (by omega)
      · cases (hlt (content.length - 1)).mp (by omega) with
        | inl hprior => exact .inl (by omega)
        | inr hlast =>
          obtain ⟨q, hq, hblock⟩ := hlast
          obtain ⟨hqlt, hvisible⟩ := (hcovers q).mp hblock
          have hend : q = content.length - 1 := by omega
          exact .inr (hend ▸ hvisible)
  · intro h
    have hlength : (stored prior blocks).length = content.length := by
      refine eq_of_forall_lt_iff fun p => ?_
      rw [hlt p]
      constructor
      · rintro (hp | ⟨q, hpq, hblock⟩)
        · exact hp.trans_le h.short
        · exact hpq.trans_lt ((hcovers q).mp hblock).1
      · intro hp
        cases h.long with
        | inl hsame => exact .inl (hsame ▸ hp)
        | inr hlast => exact .inr ⟨content.length - 1, by omega, (hcovers _).mpr ⟨by omega, hlast⟩⟩
    refine List.ext_getElem hlength fun p hp hp' => ?_
    rw [← List.getD_eq_getElem _ 0 hp, ← List.getD_eq_getElem _ 0 hp', hgetD p]
    by_cases hhidden : Hidden content p
    · rw [if_neg fun hblock => ((hcovers p).mp hblock).2 hhidden, h.hidden p hp' hhidden]
    · rw [if_pos ((hcovers p).mpr ⟨hp', hhidden⟩)]

end Content

/-! ## The file after the reply -/

section Retrieve

variable (sha : Sha256) (stackRoom : ℕ) {content : Bytes} {blocks : List (ℕ × Bytes)}

theorem retrieve_content (hblocks : blocks.Perm (makeBlocks content).2)
    (hcount : (makeBlocks content).1 < 2 ^ 32) (msgBuf prior : Bytes) :
    (retrieve sha stackRoom (contentStream sha content blocks) msgBuf prior).1 =
        checkFile sha stackRoom (sha.digest content) (stored prior blocks) ∧
      (retrieve sha stackRoom (contentStream sha content blocks) msgBuf prior).2.file =
        stored prior blocks := by
  obtain ⟨first, c₁, c', hread, hrun, -, hfile⟩ := receiveBlocks_content sha COMMAND_RETREIVE
    hblocks hcount (c := connected (contentStream sha content blocks) msgBuf prior) rfl
  have hstored : c'.file = stored prior blocks := hfile
  rw [retrieve, sendMessage, hread]
  simp only [hrun, ↓reduceIte]
  rw [hstored]
  exact ⟨rfl, rfl⟩

/-- A file passes for itself if it can be read. -/
theorem checkFile_digest {file : Bytes} (hsmall : file.length < 2147483648)
    (hroom : file.length ≤ stackRoom) : checkFile sha stackRoom (sha.digest file) file = none := by
  have hsize : file.length % 4294967296 = file.length := Nat.mod_eq_of_lt (by omega)
  rw [checkFile, getFileSha, hsize, if_pos ⟨hsmall, hroom⟩, List.take_length]
  exact if_neg (not_not.mpr rfl)

/-- The call leaves the file as it was sent, and gets past its check. -/
def Stores (sha : Sha256) (stackRoom : ℕ) (content : Bytes) (blocks : List (ℕ × Bytes))
    (msgBuf prior : Bytes) : Prop :=
  (retrieve sha stackRoom (contentStream sha content blocks) msgBuf prior).1 = none ∧
    (retrieve sha stackRoom (contentStream sha content blocks) msgBuf prior).2.file = content

end Retrieve

/-- A file is stored as it was sent exactly if its size is an int and the stack has room for it,
nothing of an older file sticks out, and that one has all that is behind a NUL already. A file of
`2 ^ 32` bytes needs a hash collision. -/
theorem retrieve_stores_iff (sha : Sha256) (stackRoom : ℕ) {content : Bytes}
    {blocks : List (ℕ × Bytes)} (hblocks : blocks.Perm (makeBlocks content).2)
    (hcount : (makeBlocks content).1 < 2 ^ 32) (msgBuf prior : Bytes) :
    (Restorable content prior ∧ content.length ≤ stackRoom →
      Stores sha stackRoom content blocks msgBuf prior) ∧
    (Stores sha stackRoom content blocks msgBuf prior →
      (Restorable content prior ∧ content.length ≤ stackRoom) ∨
      2 ^ 32 ≤ content.length ∧
        sha.digest (content.take (content.length % 2 ^ 32)) = sha.digest content) := by
  obtain ⟨hcheck, hfile⟩ := retrieve_content sha stackRoom hblocks hcount msgBuf prior
  rw [Stores, hcheck, hfile]
  constructor
  · intro ⟨h, hroom⟩
    have hstored := (stored_eq_iff h.small hblocks prior).mpr h
    rw [hstored]
    exact ⟨checkFile_digest sha stackRoom h.small hroom, rfl⟩
  · intro ⟨hnone, hstored⟩
    rw [hstored] at hnone
    obtain ⟨⟨hsize, hroom⟩, hhash⟩ := checkFile_none hnone
    by_cases hsmall : content.length < 2 ^ 32
    · rw [Nat.mod_eq_of_lt (show content.length < 4294967296 from hsmall)] at hsize hroom
      exact .inl ⟨(stored_eq_iff hsize hblocks prior).mp hstored, hroom⟩
    · exact .inr ⟨Nat.le_of_not_lt hsmall, hhash⟩

/-- Three letters are stored over two, with a stack of 8 MiB. -/
theorem stores_abc : Stores abcSha256 8388608 [97, 98, 99] [(0, [97, 98, 99])] [] [120, 121] := by
  have hblocks : makeBlocks [97, 98, 99] = (1, [(0, [97, 98, 99])]) :=
    makeBlocks_single (by decide) (by decide)
  refine (retrieve_stores_iff abcSha256 8388608 (hblocks ▸ List.Perm.refl _)
    (hblocks ▸ by decide) [] [120, 121]).1 ⟨?_, by decide⟩
  exact ⟨by decide, by decide, by decide, by decide⟩

/-- A NUL between two letters does not get into the file, nor does what is behind it. -/
theorem not_stores_nul : [(0, [97, 0, 98])].Perm (makeBlocks [97, 0, 98]).2 ∧
    (makeBlocks [97, 0, 98]).1 < 2 ^ 32 ∧
    ∀ (sha : Sha256) (stackRoom : ℕ), ¬Stores sha stackRoom [97, 0, 98] [(0, [97, 0, 98])] [] [] := by
  have hmake : makeBlocks [97, 0, 98] = (1, [(0, [97, 0, 98])]) :=
    makeBlocks_single (by decide) (by decide)
  have hblocks : [(0, [97, 0, 98])].Perm (makeBlocks [97, 0, 98]).2 := hmake ▸ List.Perm.refl _
  have hcount : (makeBlocks [97, 0, 98]).1 < 2 ^ 32 := hmake ▸ by decide
  refine ⟨hblocks, hcount, fun sha stackRoom hstores => ?_⟩
  have hstored : stored [] [(0, [97, 0, 98])] = [97, 0, 98] :=
    (retrieve_content sha stackRoom hblocks hcount [] []).2.symm.trans hstores.2
  exact absurd hstored (by decide)

end CompSys.PeerClient
