import Mathlib.Data.List.Basic
import DeadCode.Collect
import DeadCode.Proofs.FilePaths

/- Laws of the names of files. Every sequence of bytes without a zero byte is written in one way, from
   which it is read back, and text is written as itself. A name that is text is also shown as itself;
   showing respects separators, so the parts of a path are shown one by one. -/
namespace DeadCode.FileName

section Bytes

variable {bytes rest : List UInt8} {b : UInt8} {c : Char} {xs ys : List Char}

def firstChar? (bytes : List UInt8) : Option Char := bytes.toByteArray.utf8DecodeChar? 0

/-- What stands for bytes, but for as many as belong to the character before. -/
def charsOf : Nat → List UInt8 → List Char
  | _, [] => []
  | n + 1, _ :: rest => charsOf n rest
  | 0, b :: rest =>
    match firstChar? (b :: rest) with
    | some c => c :: charsOf (c.utf8Size - 1) rest
    | none => mark :: Char.ofNat b.toNat :: charsOf 0 rest

def ofBytes (bytes : List UInt8) : String := String.ofList (charsOf 0 bytes)

theorem firstChar?_append (c : Char) (rest : List UInt8) :
    firstChar? (String.utf8EncodeChar c ++ rest) = some c := by
  rw [firstChar?, List.toByteArray_append]
  exact ByteArray.utf8DecodeChar?_utf8EncodeChar_append

theorem exists_of_firstChar? (first : firstChar? bytes = some c) :
    ∃ rest, bytes = String.utf8EncodeChar c ++ rest := by
  obtain ⟨rest, whole⟩ := ByteArray.exists_of_utf8DecodeChar?_eq_some first
  refine ⟨rest.data.toList, ?_⟩
  rw [← List.toByteArray_inj, whole, List.toByteArray_append]
  congr 1
  exact ByteArray.ext (by simp)

theorem toNat_ofNat (b : UInt8) : (Char.ofNat b.toNat).toNat = b.toNat := by
  have valid : b.toNat.isValidChar := .inl (by have := b.toNat_lt; omega)
  rw [Char.ofNat, dif_pos valid]
  rfl

theorem utf8EncodeChar_ofNat (small : b.toNat < 128) :
    String.utf8EncodeChar (Char.ofNat b.toNat) = [b] := by
  have number := toNat_ofNat b
  have single : (Char.ofNat b.toNat).utf8Size = 1 := by
    rw [Char.utf8Size_eq_one_iff, UInt32.le_iff_toNat_le]
    show (Char.ofNat b.toNat).toNat ≤ 127
    omega
  rw [String.utf8EncodeChar_eq_singleton single]
  congr 1
  apply UInt8.toNat_inj.mp
  show (Char.ofNat b.toNat).toNat % 256 = b.toNat
  omega

theorem le_of_firstChar?_eq_none (none : firstChar? (b :: rest) = none) : 128 ≤ b.toNat := by
  refine Nat.le_of_not_lt fun small => ?_
  have found := firstChar?_append (Char.ofNat b.toNat) rest
  rw [utf8EncodeChar_ofNat small, List.singleton_append, none] at found
  cases found

theorem pieces_cons (other : c ≠ mark) : pieces (c :: xs) = .char c :: pieces xs := by
  cases xs with
  | nil => rfl
  | cons next rest => simp [pieces, other]

theorem pieces_mark (stands : standsForByte c = true) :
    pieces (mark :: c :: xs) = .byte (UInt8.ofNat c.toNat) :: pieces xs := by
  simp [pieces, stands]

theorem standsForByte_ofNat (large : 128 ≤ b.toNat) :
    standsForByte (Char.ofNat b.toNat) = true ∧ UInt8.ofNat (Char.ofNat b.toNat).toNat = b := by
  rw [standsForByte, toNat_ofNat, UInt8.ofNat_toNat]
  exact ⟨decide_eq_true ⟨large, b.toNat_lt⟩, rfl⟩

theorem bytes_charsOf (n : Nat) (bytes : List UInt8) (nonzero : ∀ b ∈ bytes.drop n, b ≠ 0) :
    (pieces (charsOf n bytes)).flatMap Piece.bytes = bytes.drop n := by
  induction bytes generalizing n with
  | nil => simp [charsOf, pieces]
  | cons b rest ih =>
    cases n with
    | succ n => exact ih n nonzero
    | zero =>
      cases first : firstChar? (b :: rest) with
      | none =>
        obtain ⟨stands, back⟩ := standsForByte_ofNat (le_of_firstChar?_eq_none first)
        rw [charsOf, first, pieces_mark stands, List.flatMap_cons, back]
        simpa [Piece.bytes] using ih 0 fun b mem => nonzero b (by simp [List.mem_of_mem_drop mem])
      | some c =>
        obtain ⟨others, whole⟩ := exists_of_firstChar? first
        have other : c ≠ mark := by
          rintro rfl
          have zero : b = 0 := (List.cons.inj whole).1
          exact nonzero b (by simp) zero
        have size : 0 < c.utf8Size := Char.utf8Size_pos c
        have drop : rest.drop (c.utf8Size - 1) = others := by
          calc rest.drop (c.utf8Size - 1) = (b :: rest).drop (c.utf8Size - 1 + 1) := rfl
            _ = others := by
              rw [whole, Nat.sub_add_cancel size]
              exact List.drop_left' (String.length_utf8EncodeChar c)
        have later := ih (c.utf8Size - 1) fun b mem =>
          nonzero b (List.mem_cons_of_mem _ (List.mem_of_mem_drop mem))
        rw [charsOf, first, pieces_cons other, List.flatMap_cons, later, drop]
        exact whole.symm

/-- A name is read back as the bytes that it was written for. -/
theorem bytes_ofBytes (nonzero : ∀ b ∈ bytes, b ≠ 0) : FileName.bytes (ofBytes bytes) = bytes := by
  rw [FileName.bytes, ofBytes, String.toList_ofList]
  exact bytes_charsOf 0 bytes nonzero

theorem charsOf_append (skipped rest : List UInt8) :
    charsOf skipped.length (skipped ++ rest) = charsOf 0 rest := by
  induction skipped with
  | nil => rfl
  | cons b skipped ih => exact ih

theorem charsOf_text (chars : List Char) :
    charsOf 0 (chars.flatMap String.utf8EncodeChar) = chars := by
  induction chars with
  | nil => rfl
  | cons c rest ih =>
    have first := firstChar?_append c (rest.flatMap String.utf8EncodeChar)
    have size := String.length_utf8EncodeChar c
    cases written : String.utf8EncodeChar c with
    | nil =>
      rw [written] at size
      exact absurd size.symm (Nat.ne_of_gt (Char.utf8Size_pos c))
    | cons b others =>
      rw [written, List.length_cons] at size
      rw [written, List.cons_append] at first
      rw [List.flatMap_cons, written, List.cons_append, charsOf, first]
      simp only [← size, Nat.add_sub_cancel, charsOf_append, ih]

theorem ofBytes_text (text : String) :
    ofBytes (text.toList.flatMap String.utf8EncodeChar) = text := by
  rw [ofBytes, charsOf_text, String.ofList_toList]

example : ofBytes [0xfe, 0x2e, 0x70, 0x79] = "\x00\u00fe.py" := by decide

end Bytes

section Shown

variable {name : String} {xs ys : List Char} {ps qs : List Piece} {going : List (UInt8 × UInt8)}
variable {c sep : Char}

theorem pieces_append (other : c ≠ mark) (plain : standsForByte c = false) :
    pieces (xs ++ c :: ys) = pieces xs ++ .char c :: pieces ys := by
  fun_induction pieces xs with
  | case1 => exact pieces_cons other
  | case2 d => simp [pieces, plain, pieces_cons other]
  | case3 d next rest stands ih => simp [pieces, stands, ih]
  | case4 d next rest stands ih =>
    rw [List.cons_append] at ih
    simp [pieces, stands, ih]

theorem shownPieces_append : shownPieces going (ps ++ .char c :: qs) =
    shownPieces going ps ++ c :: shownPieces [] qs := by
  fun_induction shownPieces going ps <;> simp [shownPieces, *]

theorem shown_append (x y : String) (other : sep ≠ mark) (plain : standsForByte sep = false) :
    shown (x ++ String.singleton sep ++ y) = shown x ++ String.singleton sep ++ shown y := by
  apply String.ext
  simp [shown, pieces_append other plain, shownPieces_append]

theorem pieces_of_isText (text : mark ∉ xs) : pieces xs = xs.map Piece.char := by
  induction xs with
  | nil => rfl
  | cons c rest ih =>
    simp only [List.mem_cons, not_or] at text
    rw [pieces_cons (Ne.symm text.1), ih text.2, List.map_cons]

theorem shownPieces_chars (xs : List Char) : shownPieces going (xs.map Piece.char) = xs := by
  induction xs generalizing going with
  | nil => cases going <;> rfl
  | cons c rest ih => cases going <;> rw [List.map_cons, shownPieces, ih]

theorem shown_of_isText (text : IsText name) : shown name = name := by
  rw [shown, pieces_of_isText text, shownPieces_chars, String.ofList_toList]

theorem map_shown {names : List String} (text : ∀ name ∈ names, IsText name) :
    names.map shown = names :=
  (List.map_congr_left fun name mem => shown_of_isText (text name mem)).trans (List.map_id names)

theorem mem_pieces (mem : Piece.char c ∈ pieces xs) : c ∈ xs := by
  fun_induction pieces xs with
  | case1 => cases mem
  | case2 d => simpa using mem
  | case3 d next rest _ ih =>
    rcases List.mem_cons.mp mem with byte | later
    · cases byte
    · exact List.mem_cons_of_mem _ (List.mem_cons_of_mem _ (ih later))
  | case4 d next rest _ ih =>
    rcases List.mem_cons.mp mem with same | later
    · cases same
      exact List.mem_cons_self
    · exact List.mem_cons_of_mem _ (ih later)

theorem mem_shownPieces (mem : c ∈ shownPieces going ps) : c = replacement ∨ Piece.char c ∈ ps := by
  fun_induction shownPieces going ps with
  | case1 => cases mem
  | case2 _ d rest ih =>
    rcases List.mem_cons.mp mem with same | later
    · exact .inr (same ▸ List.mem_cons_self)
    · exact (ih later).imp_right (List.mem_cons_of_mem _)
  | case4 _ _ _ _ _ _ ih => exact (ih mem).imp_right (List.mem_cons_of_mem _)
  | case3 | case5 =>
    rename_i ih
    rcases List.mem_cons.mp mem with same | later
    · exact .inl same
    · exact (ih later).imp_right (List.mem_cons_of_mem _)

theorem mem_shown (mem : c ∈ (shown name).toList) : c = replacement ∨ c ∈ name.toList := by
  rw [shown, String.toList_ofList] at mem
  exact (mem_shownPieces mem).imp_right mem_pieces

theorem pieces_eq_nil (none : pieces xs = []) : xs = [] := by
  fun_induction pieces xs with
  | case1 => rfl
  | case2 | case3 | case4 => cases none

theorem shownPieces_eq_nil (none : shownPieces [] ps = []) : ps = [] := by
  cases ps with
  | nil => rfl
  | cons p rest => cases p <;> cases none

theorem shown_eq_empty (empty : shown name = "") : name = "" := by
  have none := congrArg String.toList empty
  rw [shown, String.toList_ofList] at none
  exact String.ext (pieces_eq_nil (shownPieces_eq_nil none))

-- Bytes that begin no character are shown one by one, those of a character that breaks off together.
example : shown (ofBytes [0xfe, 0xff, 0x2e]) = "\ufffd\ufffd." := by decide
example : shown (ofBytes [0xf0, 0x9f, 0x98, 0x2e]) = "\ufffd." := by decide

end Shown

end DeadCode.FileName

namespace DeadCode.Collect

theorem extension?_shown {name ext : String} (found : extension? name = some ext) :
    extension? (FileName.shown name) = some (FileName.shown ext) := by
  unfold extension? at found
  split at found
  · next stem back parted =>
    split at found
    · cases found
    · next nonempty =>
      cases found
      obtain ⟨rfl, free⟩ := Text.eq_of_splitLast? parted
      have kept : '.' ∉ (FileName.shown ext).toList := by
        intro mem
        rcases FileName.mem_shown mem with same | old
        · cases same
        · exact free old
      have stem : FileName.shown stem ≠ "" :=
        fun empty => nonempty (beq_iff_eq.mpr (FileName.shown_eq_empty empty))
      rw [FileName.shown_append _ _ (by decide) (by decide), extension?,
        Text.splitLast?_append _ kept]
      simp [stem]
  · cases found

theorem plainNames_shown {names : List String} (plain : PlainNames names) :
    PlainNames (names.map FileName.shown) := by
  intro shown mem slash
  obtain ⟨name, among, rfl⟩ := List.mem_map.mp mem
  rcases FileName.mem_shown slash with same | old
  · cases same
  · exact plain name among old

end DeadCode.Collect
