import Skt.Lib.Decimal
import Skt.Software.Receive

/-!
# Text files and binary files

`txt2bin` and `sketch_tcp_fileclient` read a text file of decimal numbers, each
with the same loop: extract a number, leave if the stream has failed, store it.
The one writes the four bytes of every number to a binary file, which
`sketch_fileclient` maps into memory as an array of words, and the other keeps
the numbers in a vector.

Whatever the text, the words in the binary file are the numbers in the vector,
and they are the numbers that stand in the text up to the first place where no
number is. A text of numbers in range with white space between them is read to
its end by both.

What an extraction does to the text is the documented behaviour of `operator>>`
for `uint32_t` and is defined in `Skt.Lib.Decimal`.
-/

namespace Skt

open Decimal LittleEndian

/-! ## The bytes of items

The items as bytes are what is written to a file, mapped into memory and sent
over a socket. -/

/-- Items as they lie in memory, four bytes each, the least significant
first. -/
def encodeItems (items : List (BitVec 32)) : List Byte :=
  items.flatMap fun v => leBytes 4 v.toNat

/-- Items take four bytes each. -/
@[simp] theorem length_encodeItems (items : List (BitVec 32)) :
    (encodeItems items).length = 4 * items.length := by
  unfold encodeItems
  rw [List.length_flatMap]
  simp [Nat.mul_comm]

/-- Items in a row are their bytes in a row. -/
theorem encodeItems_append (a b : List (BitVec 32)) :
    encodeItems (a ++ b) = encodeItems a ++ encodeItems b := List.flatMap_append

/-- Items over and over, as a client sends them that repeats its block. -/
theorem encodeItems_flatten_replicate (n : ℕ) (items : List (BitVec 32)) :
    encodeItems (List.replicate n items).flatten
      = (List.replicate n (encodeItems items)).flatten := by
  induction n with
  | zero => rfl
  | succ n ih =>
    rw [List.replicate_succ, List.replicate_succ,
      List.flatten_cons, List.flatten_cons,
      encodeItems_append, ih]

/-- One item is read back from its bytes. -/
theorem decodeItems_leBytes (v : BitVec 32) :
    decodeItems (leBytes 4 v.toNat) = [v] := by
  have hword : wordAt 4 (leBytes 4 v.toNat) 0 = v.toNat :=
    (leNat_leBytes 4 v.toNat).trans (Nat.mod_eq_of_lt v.isLt)
  unfold decodeItems words
  rw [length_leBytes]
  show [BitVec.ofNat 32 (wordAt 4 (leBytes 4 v.toNat) 0)] = [v]
  rw [hword, BitVec.ofNat_toNat, BitVec.setWidth_eq]

/-- **Items are read back from their bytes**, whatever they are and however
many. -/
theorem decodeItems_encodeItems (items : List (BitVec 32)) :
    decodeItems (encodeItems items) = items := by
  induction items with
  | nil => rfl
  | cons v items ih =>
    have hfour : 4 ∣ (leBytes 4 v.toNat).length := by rw [length_leBytes]
    show decodeItems (leBytes 4 v.toNat ++ encodeItems items) = _
    rw [decodeItems_append hfour, decodeItems_leBytes, ih]
    rfl

/-- The bytes of the first items are the first bytes. -/
theorem take_encodeItems (items : List (BitVec 32)) (k : ℕ) :
    (encodeItems items).take (4 * k) = encodeItems (items.take k) := by
  induction items generalizing k with
  | nil => simp [encodeItems]
  | cons v items ih =>
    cases k with
    | zero => rfl
    | succ k =>
      show (leBytes 4 v.toNat ++ encodeItems items).take (4 * k + 4) = _
      rw [Nat.add_comm (4 * k) 4, List.take_add,
        List.take_left' (length_leBytes 4 _),
        List.drop_left' (length_leBytes 4 _), ih]
      rfl

/-- The bytes behind the first items are those of the others. -/
theorem drop_encodeItems (items : List (BitVec 32)) (k : ℕ) :
    (encodeItems items).drop (4 * k) = encodeItems (items.drop k) := by
  induction items generalizing k with
  | nil => simp [encodeItems]
  | cons v items ih =>
    cases k with
    | zero => rfl
    | succ k =>
      show (leBytes 4 v.toNat ++ encodeItems items).drop (4 * k + 4) = _
      rw [Nat.add_comm (4 * k) 4, ← List.drop_drop,
        List.drop_left' (length_leBytes 4 _), ih]
      rfl

/-- **A beginning of the bytes** stands for the items that are all there. An
item that was cut is not decoded. -/
theorem decodeItems_take_encodeItems (items : List (BitVec 32)) {n : ℕ}
    (hn : n ≤ 4 * items.length) :
    decodeItems ((encodeItems items).take n) = items.take (n / 4) := by
  have hlen : ((encodeItems items).take n).length = n := by
    rw [List.length_take, length_encodeItems, min_eq_left hn]
  rw [← decodeItems_take, hlen, List.take_take,
    min_eq_left (Nat.mul_div_le n 4),
    take_encodeItems, decodeItems_encodeItems]

/-! ## The programs -/

/-- The loop of `txt2bin`, up to what it has written. It has no other output,
and its file is closed behind it. -/
def txt2bin (ifs : List Char) : List Byte :=
  extractLoop (fun (ofs : List Byte) (v : BitVec 32) =>
    ofs ++ leBytes 4 v.toNat) [] ifs

/-- The loop of `sketch_tcp_fileclient` that fills `ibuf`. -/
def readText (ifs : List Char) : List (BitVec 32) :=
  extractLoop (fun (ibuf : List (BitVec 32)) (v : BitVec 32) =>
    ibuf ++ [v]) [] ifs

/-- The mapped file of `sketch_fileclient`: the words `idata[0..isize)`. The
size of the file is divided by that of an item, so a rest is not read. -/
def mappedItems (ibuf : List Byte) : List (BitVec 32) := decodeItems ibuf

/-- `txt2bin` writes the numbers that the other program keeps. -/
theorem txt2bin_eq (text : List Char) :
    txt2bin text = encodeItems (readText text) := by
  have hfold : ∀ (items : List (BitVec 32)) (ofs : List Byte),
      items.foldl (fun ofs v => ofs ++ leBytes 4 v.toNat) ofs
        = ofs ++ encodeItems items := by
    intro items
    induction items with
    | nil => exact fun ofs => (List.append_nil ofs).symm
    | cons v items ih =>
      intro ofs
      rw [List.foldl_cons, ih, List.append_assoc]
      rfl
  unfold txt2bin
  rw [(extractLoop_eq_foldl _ [] text []).2, hfold]
  rfl

/-- The mapped words of the binary file are the numbers read from the text. -/
theorem mappedItems_txt2bin (text : List Char) :
    mappedItems (txt2bin text) = readText text := by
  rw [txt2bin_eq]
  exact decodeItems_encodeItems _

/-- **Text files and binary files.** For every text: the mapped words of the
binary file are the numbers read from the text; the text is numbers set apart,
those read, up to a place where no number is; and however numbers in range are
laid out, with signs, leading zeros and any white space in front of each, they
are what is read, up to the first such place. -/
theorem textFile_items (text : List Char) :
    mappedItems (txt2bin text) = readText text
      ∧ (txt2bin text).length = 4 * (readText text).length
      ∧ (∃ (numbers : List (List Char × Token 32)) (rest : List Char),
        text = layout numbers ++ rest ∧ Apart numbers ∧ extract 32 rest = none
          ∧ readText text = numbers.map fun number => number.2.value)
      ∧ ∀ (numbers : List (List Char × Token 32)) (rest : List Char),
        text = layout numbers ++ rest → Apart numbers → NoDigit rest →
          extract 32 rest = none →
          readText text = numbers.map fun number => number.2.value := by
  refine ⟨mappedItems_txt2bin text, ?_, ?_,
    fun numbers rest htext hapart hdigit hfail => ?_⟩
  · rw [txt2bin_eq, length_encodeItems]
  · obtain ⟨numbers, rest, htext, hapart, hfail, -, hwords⟩ :=
      exists_layout (w := 32) text
    exact ⟨numbers, rest, htext, hapart, hfail, hwords.symm⟩
  · rw [htext]
    exact extractAll_layout numbers hapart hdigit hfail

/-- **What is written is read.** Words in decimal digits with white space
between them, of any kind and length, and any white space behind them, come back
from the binary file. -/
theorem mappedItems_layout (numbers : List (List Char × BitVec 32))
    (tail : List Char)
    (hspace : ∀ number ∈ numbers, ∀ c ∈ number.1, isSpace c = true)
    (hne : ∀ number ∈ numbers.tail, number.1 ≠ [])
    (htail : ∀ c ∈ tail, isSpace c = true) :
    mappedItems (txt2bin
      (numbers.flatMap
        (fun number => number.1 ++ Nat.toDigits 10 number.2.toNat) ++ tail))
        = numbers.map Prod.snd := by
  set tokens : List (List Char × Token 32) :=
    numbers.map fun number => (number.1, Token.ofWord number.2) with htokens
  have hlayout : numbers.flatMap
    (fun number => number.1 ++ Nat.toDigits 10 number.2.toNat)
      = layout tokens := by
    rw [htokens, layout, List.flatMap_map]
    rfl
  have hapart : Apart tokens := by
    refine apart_of_spaces (fun token htoken => ?_) fun token htoken => ?_
    · obtain ⟨number, hnumber, rfl⟩ := List.mem_map.mp htoken
      exact hspace number hnumber
    · rw [htokens, ← List.map_tail] at htoken
      obtain ⟨number, hnumber, rfl⟩ := List.mem_map.mp htoken
      exact hne number hnumber
  have hdrop : tail.dropWhile isSpace = [] :=
    List.dropWhile_eq_nil_iff.mpr htail
  have hfail : extract 32 tail = none := by
    unfold extract
    rw [hdrop]
    rfl
  have hdigit : NoDigit tail := by
    by_cases hnil : tail = []
    · rw [hnil]
      exact fun c hc => nomatch hc
    · have h : NoDigit (tail ++ []) := noDigit_of_space hnil htail
      rwa [List.append_nil] at h
  rw [mappedItems_txt2bin, hlayout]
  refine (extractAll_layout tokens hapart hdigit hfail).trans ?_
  rw [htokens, List.map_map]
  exact List.map_congr_left fun number _ => Token.value_ofWord number.2

/-- Two numbers on a line each. -/
theorem mappedItems_layout_instance :
    mappedItems (txt2bin (['1', '2'] ++ ['\n', '7'] ++ ['\n']))
      = [12#32, 7#32] :=
  mappedItems_layout [([], 12#32), (['\n'], 7#32)] ['\n']
    (by simp [isSpace]) (by simp)
    (by simp [isSpace])

end Skt
