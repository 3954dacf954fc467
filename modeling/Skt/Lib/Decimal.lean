import Mathlib

/-!
# Decimal numbers in a text

What the extraction of unsigned integers from a formatted input stream does to a
text: white space is skipped, an optional sign is read and then as many digits
as there are. A text without a digit there, and a number too large for the word,
make the extraction fail. A minus sign negates the number as a word.

A program that extracts until the stream fails reads the longest sequence of
numbers the text starts with. In particular it reads back every sequence of
numbers that was written with white space between them, in any layout and with
any leading zeros.

Both directions are proved. `extractAll_layout` says that a layout of numbers is
read back, and `exists_layout` that every text is one, up to the place where the
extraction fails.
-/

namespace Decimal

/-! ## One extraction -/

/-- White space: the blank and the control characters from the tabulator to the
carriage return, as in the classic locale. -/
def isSpace (c : Char) : Bool := c.toNat == 32 || (9 ≤ c.toNat && c.toNat ≤ 13)

/-- An optional sign in front of the digits, and whether it is a minus. At most
one sign is read: a second one is not a digit and makes the extraction fail. -/
def readSign : List Char → Bool × List Char
  | '-' :: text => (true, text)
  | '+' :: text => (false, text)
  | text => (false, text)

/-- **One extraction** of a word of `w` bits: the word and the rest of the text,
or failure.

An unsigned integer may be written with a minus sign; the word is then the
negative of the number modulo `2 ^ w`. The range check is on the number without
its sign. -/
def extract (w : ℕ) (text : List Char) : Option (BitVec w × List Char) :=
  let (negative, text) := readSign (text.dropWhile isSpace)
  let digits := text.takeWhile Char.isDigit
  let value := Nat.ofDigitChars 10 digits 0
  if digits ≠ [] ∧ value < 2 ^ w then
    some (if negative then -BitVec.ofNat w value else BitVec.ofNat w value,
      text.dropWhile Char.isDigit)
  else none

/-! ## Tokens -/

/-- The sign of a number in a text, which may be absent. -/
inductive Sign where
  | absent
  | plus
  | minus

/-- The characters of a sign, at most one. -/
def Sign.text : Sign → List Char
  | .absent => []
  | .plus => ['+']
  | .minus => ['-']

/-- **A number as it may stand in a text**: a sign and some digits, in range.

What an extraction can succeed on is exactly a token behind white space, with no
digit following. The fields say so once, and the lemmas about texts do not
repeat it. -/
structure Token (w : ℕ) where
  /-- The sign in front, if there is one. -/
  sign : Sign
  /-- The digits behind it, leading zeros included. -/
  digits : List Char
  /-- There is at least one of them. -/
  digits_ne_nil : digits ≠ []
  /-- And nothing else. -/
  isDigit : ∀ c ∈ digits, c.isDigit = true
  /-- The number fits into the word, whatever its sign and its leading zeros. -/
  lt : Nat.ofDigitChars 10 digits 0 < 2 ^ w

variable {w : ℕ}

/-- The characters of a number, the sign in front. -/
def Token.text (t : Token w) : List Char := t.sign.text ++ t.digits

/-- The word a number stands for, negated as a word behind a minus. -/
def Token.value (t : Token w) : BitVec w :=
  match t.sign with
  | .minus => -BitVec.ofNat w (Nat.ofDigitChars 10 t.digits 0)
  | _ => BitVec.ofNat w (Nat.ofDigitChars 10 t.digits 0)

/-- A word in decimal digits, without a sign and without leading zeros. -/
def Token.ofWord (v : BitVec w) : Token w where
  sign := .absent
  digits := Nat.toDigits 10 v.toNat
  digits_ne_nil := Nat.toDigits_ne_nil
  isDigit _ hc := Nat.isDigit_of_mem_toDigits (by decide) (by decide) hc
  lt := by
    rw [Nat.ofDigitChars_ten_toDigits]
    exact v.isLt

/-- The digits of a word stand for it. -/
theorem Token.value_ofWord (v : BitVec w) : (Token.ofWord v).value = v := by
  show BitVec.ofNat w (Nat.ofDigitChars 10 (Nat.toDigits 10 v.toNat) 0) = v
  rw [Nat.ofDigitChars_ten_toDigits]
  rw [BitVec.ofNat_toNat, BitVec.setWidth_eq]

/-- A text that does not go on with a digit, so that the digits in front of it
end there. -/
def NoDigit (text : List Char) : Prop := ∀ c ∈ text.head?, c.isDigit = false

/-- A digit is neither white space nor a sign, so the three parts of a number do
not run into each other. -/
theorem not_space_of_digit {c : Char} (hc : c.isDigit = true) :
    isSpace c = false ∧ c ≠ '-' ∧ c ≠ '+' := by
  have hval : 48 ≤ c.toNat ∧ c.toNat ≤ 57 := Char.isDigit_iff_toNat.mp hc
  refine ⟨?_, ?_, ?_⟩
  · simp only [isSpace, Bool.or_eq_false_iff, beq_eq_false_iff_ne,
      Bool.and_eq_false_imp,
      decide_eq_true_eq, decide_eq_false_iff_not]
    omega
  · rintro rfl
    exact absurd hval (by decide)
  · rintro rfl
    exact absurd hval (by decide)

/-- As many digits as there are: with no digit behind them, exactly these. -/
theorem takeWhile_digits {digits rest : List Char}
    (hdigits : ∀ c ∈ digits, c.isDigit = true) (hrest : NoDigit rest) :
    (digits ++ rest).takeWhile Char.isDigit = digits
      ∧ (digits ++ rest).dropWhile Char.isDigit = rest := by
  have hhead : rest.takeWhile Char.isDigit = []
    ∧ rest.dropWhile Char.isDigit = rest := by
    cases rest with
    | nil => exact ⟨rfl, rfl⟩
    | cons c rest =>
      have hc := hrest c rfl
      simp [hc]
  rw [List.takeWhile_append_of_pos hdigits,
    List.dropWhile_append_of_pos hdigits, hhead.1, hhead.2,
    List.append_nil]
  exact ⟨rfl, rfl⟩

/-- The first character of a number is not white space, so skipping white space
stops there. -/
theorem Token.dropWhile_space (t : Token w)
    {space : List Char} (rest : List Char)
    (hspace : ∀ c ∈ space, isSpace c = true) :
    (space ++ t.text ++ rest).dropWhile isSpace = t.text ++ rest := by
  rw [List.append_assoc, List.dropWhile_append_of_pos hspace]
  obtain ⟨c, digits, hdigits⟩ := List.exists_cons_of_ne_nil t.digits_ne_nil
  have hc := (not_space_of_digit (t.isDigit c (hdigits ▸ List.mem_cons_self))).1
  unfold Token.text
  cases t.sign with
  | absent => simp [Sign.text, hdigits, hc]
  | plus => simp [Sign.text, isSpace]
  | minus => simp [Sign.text, isSpace]

/-- **A number is read back**, behind any white space, up to where its digits
end. What follows is left in the text for the next extraction. -/
theorem extract_token (t : Token w) {space rest : List Char}
    (hspace : ∀ c ∈ space, isSpace c = true) (hrest : NoDigit rest) :
    extract w (space ++ t.text ++ rest) = some (t.value, rest) := by
  have hsign : readSign (t.text ++ rest)
    = (t.sign matches .minus, t.digits ++ rest) := by
    obtain ⟨c, digits, hdigits⟩ := List.exists_cons_of_ne_nil t.digits_ne_nil
    obtain ⟨-, hminus, hplus⟩ :=
      not_space_of_digit (t.isDigit c (hdigits ▸ List.mem_cons_self))
    unfold Token.text
    cases t.sign with
    | absent =>
      simp only [Sign.text, List.nil_append, hdigits, List.cons_append]
      unfold readSign
      split
      · next h => exact absurd (List.cons.inj h).1 hminus
      · next h => exact absurd (List.cons.inj h).1 hplus
      · rfl
    | plus => rfl
    | minus => rfl
  obtain ⟨htake, hdrop⟩ := takeWhile_digits t.isDigit hrest
  unfold extract
  rw [t.dropWhile_space rest hspace, hsign]
  simp only [htake, hdrop]
  rw [if_pos ⟨t.digits_ne_nil, t.lt⟩]
  unfold Token.value
  cases t.sign <;> rfl

/-- What is in front of the digits of an extraction is a sign, possibly the
absent one. -/
theorem readSign_text (text : List Char) :
    ∃ sign : Sign, text = sign.text ++ (readSign text).2
      ∧ (readSign text).1 = (sign matches .minus) := by
  unfold readSign
  split
  · exact ⟨.minus, rfl, rfl⟩
  · exact ⟨.plus, rfl, rfl⟩
  · exact ⟨.absent, rfl, rfl⟩

/-- **What is read is a number of the text**: an extraction that succeeds has
passed over white space and one number, and stands where the digits of the
number end. -/
theorem exists_token_of_extract {text rest : List Char} {v : BitVec w}
    (h : extract w text = some (v, rest)) :
    ∃ (space : List Char) (t : Token w), text = space ++ t.text ++ rest
      ∧ t.value = v
      ∧ (∀ c ∈ space, isSpace c = true) ∧ NoDigit rest := by
  obtain ⟨sign, hsign, hminus⟩ := readSign_text (text.dropWhile isSpace)
  unfold extract at h
  simp only [Option.ite_none_right_eq_some,
    Option.some.injEq, Prod.mk.injEq] at h
  obtain ⟨⟨hne, hlt⟩, hv, hrest⟩ := h
  set signed := readSign (text.dropWhile isSpace) with hsigned
  refine ⟨text.takeWhile isSpace, ⟨sign, signed.2.takeWhile Char.isDigit, hne,
    fun c hc => List.mem_takeWhile_imp hc, hlt⟩, ?_, ?_, fun c hc =>
      List.mem_takeWhile_imp hc, ?_⟩
  · unfold Token.text
    dsimp only
    rw [List.append_assoc, List.append_assoc, ← hrest,
      List.takeWhile_append_dropWhile, ← hsign,
      List.takeWhile_append_dropWhile]
  · rw [← hv, hminus]
    unfold Token.value
    cases sign <;> rfl
  · rw [← hrest]
    intro c hc
    have hhead := List.head?_dropWhile_not Char.isDigit signed.2
    rw [Option.mem_def.mp hc] at hhead
    simpa using hhead

/-! ## Extraction until the stream fails -/

/-- An extraction that succeeds takes something from the text, at least one
digit. It is why the loop below ends. -/
theorem length_lt_of_extract {text rest : List Char} {v : BitVec w}
    (h : extract w text = some (v, rest)) : rest.length < text.length := by
  obtain ⟨space, t, rfl, -, -, -⟩ := exists_token_of_extract h
  have hpos := List.length_pos_iff.mpr t.digits_ne_nil
  simp only [Token.text, List.length_append]
  omega

/-- **A loop that extracts until the stream fails**, with what its body does to
the variables. The text becomes shorter in every turn. -/
def extractLoop {σ : Type*} (body : σ → BitVec w → σ) (s : σ)
    (text : List Char) : σ :=
  match _h : extract w text with
  | none => s
  | some (v, rest) => extractLoop body (body s v) rest
termination_by text.length
decreasing_by exact length_lt_of_extract _h

/-- The words a loop extracts, in their order: the loop whose body only keeps
them. -/
def extractAll (w : ℕ) (text : List Char) : List (BitVec w) :=
  extractLoop (fun vs v => vs ++ [v]) [] text

section Loop

variable {σ : Type*} (body : σ → BitVec w → σ)

/-- A loop at a text that it extracts nothing from. -/
theorem extractLoop_of_none (s : σ) {text : List Char}
    (h : extract w text = none) :
    extractLoop body s text = s := by
  rw [extractLoop]
  split
  · rfl
  · next hsome =>
    rw [h] at hsome
    cases hsome

/-- A loop at a text that it extracts a word from. -/
theorem extractLoop_of_some (s : σ) {text rest : List Char} {v : BitVec w}
    (h : extract w text = some (v, rest)) :
    extractLoop body s text = extractLoop body (body s v) rest := by
  rw [extractLoop]
  split
  · next hnone =>
    rw [h] at hnone
    cases hnone
  · next hsome =>
    rw [h] at hsome
    cases hsome
    rfl

/-- **A loop folds its body over the words extracted**, from any start. So the
text and the body can be looked at apart. -/
theorem extractLoop_eq_foldl (s : σ) (text : List Char) (vs : List (BitVec w)) :
    extractLoop (fun vs v => vs ++ [v]) vs text = vs ++ extractAll w text
      ∧ extractLoop body s text = (extractAll w text).foldl body s := by
  induction hn : text.length using Nat.strongRecOn generalizing s text vs with
  | ind n ih =>
    cases h : extract w text with
    | none =>
      have hall : extractAll w text = [] := extractLoop_of_none _ _ h
      rw [hall, List.append_nil]
      exact ⟨extractLoop_of_none _ _ h, extractLoop_of_none _ _ h⟩
    | some p =>
      obtain ⟨v, rest⟩ := p
      have hlt : rest.length < n := hn ▸ length_lt_of_extract h
      have hall : extractAll w text = v :: extractAll w rest := by
        show extractLoop _ _ _ = _
        rw [extractLoop_of_some _ _ h]
        exact (ih _ hlt s rest [v] rfl).1
      refine ⟨?_, ?_⟩
      · rw [extractLoop_of_some _ _ h, (ih _ hlt s rest _ rfl).1,
          hall, List.append_assoc]
        rfl
      · rw [extractLoop_of_some _ _ h, (ih _ hlt _ rest [] rfl).2,
          hall, List.foldl_cons]

end Loop

/-- Nothing is extracted where the extraction fails, whatever stands behind. -/
theorem extractAll_of_none {text : List Char} (h : extract w text = none) :
    extractAll w text = [] :=
  extractLoop_of_none _ _ h

/-- The words extracted from a text are the first and those of the rest. -/
theorem extractAll_of_some {text rest : List Char} {v : BitVec w}
    (h : extract w text = some (v, rest)) :
    extractAll w text = v :: extractAll w rest :=
  (extractLoop_of_some _ _ h).trans
    (extractLoop_eq_foldl (fun vs v => vs ++ [v]) [] rest [v]).1

/-! ## Layouts -/

/-- Numbers in a row, each behind its white space. -/
def layout (numbers : List (List Char × Token w)) : List Char :=
  numbers.flatMap fun number => number.1 ++ number.2.text

@[simp] theorem layout_nil : layout
    ([] : List (List Char × Token w)) = [] := rfl

@[simp] theorem layout_cons (number : List Char × Token w)
    (rest : List (List Char × Token w)) :
    layout (number :: rest) = number.1 ++ number.2.text ++ layout rest :=
      List.flatMap_cons

/-- **Numbers that are set apart**: there is only white space between them, and
some in front of every number that has no sign. The first number may stand at
the start of the text.

A sign sets a number apart by itself, so that `1-2` are two numbers. -/
def Apart : List (List Char × Token w) → Prop
  | [] => True
  | number :: rest => (∀ c ∈ number.1, isSpace c = true)
    ∧ NoDigit (layout rest) ∧ Apart rest

/-- White space is no digit, so it ends the number in front of it. -/
theorem noDigit_of_space {space text : List Char} (hne : space ≠ [])
    (hspace : ∀ c ∈ space, isSpace c = true) : NoDigit (space ++ text) := by
  obtain ⟨c, space, rfl⟩ := List.exists_cons_of_ne_nil hne
  intro d hd
  cases hd
  refine Bool.eq_false_iff.mpr fun hdigit => ?_
  have hc := hspace c List.mem_cons_self
  rw [(not_space_of_digit hdigit).1] at hc
  cases hc

/-- Numbers are set apart by white space in front of every number but the first.
This is how files of numbers are usually written. -/
theorem apart_of_spaces {numbers : List (List Char × Token w)}
    (hspace : ∀ number ∈ numbers, ∀ c ∈ number.1, isSpace c = true)
    (hne : ∀ number ∈ numbers.tail, number.1 ≠ []) : Apart numbers := by
  induction numbers with
  | nil => trivial
  | cons number numbers ih =>
    have hrest : ∀ number ∈ numbers, ∀ c ∈ number.1,
      isSpace c = true := fun number h =>
      hspace number (List.mem_cons_of_mem _ h)
    refine ⟨hspace number List.mem_cons_self, ?_, ih hrest fun number h =>
      hne number (List.mem_of_mem_tail h)⟩
    cases numbers with
    | nil => exact fun c hc => nomatch hc
    | cons next numbers =>
      rw [layout_cons, List.append_assoc]
      exact noDigit_of_space (hne next List.mem_cons_self)
        (hrest next List.mem_cons_self)

/-- **Numbers set apart are read back**, up to where the extraction fails. The
rest may be empty or begin with anything that is not a number in range. -/
theorem extractAll_layout (numbers : List (List Char × Token w))
    (hapart : Apart numbers) {rest : List Char} (hrest : NoDigit rest)
    (hfail : extract w rest = none) :
    extractAll w (layout numbers ++ rest) = numbers.map fun number =>
      number.2.value := by
  induction numbers with
  | nil => exact extractAll_of_none hfail
  | cons number numbers ih =>
    obtain ⟨hspace, hdigit, hapart⟩ := hapart
    have hnext : NoDigit (layout numbers ++ rest) := by
      intro c hc
      cases hlayout : layout numbers with
      | nil =>
        rw [hlayout] at hc
        exact hrest c hc
      | cons d text =>
        rw [hlayout] at hc hdigit
        exact hdigit c hc
    have hread := extract_token number.2 hspace hnext
    rw [layout_cons, List.append_assoc, extractAll_of_some hread,
      ih hapart, List.map_cons]

/-- **What a loop reads is what stands there**: the text is numbers set apart,
whose words are the ones extracted, and a rest at which the extraction fails.
There is no condition on the text. -/
theorem exists_layout (text : List Char) :
    ∃ (numbers : List (List Char × Token w)) (rest : List Char),
      text = layout numbers ++ rest ∧ Apart numbers ∧ extract w rest = none
        ∧ (numbers ≠ [] → NoDigit rest)
        ∧ (numbers.map fun number => number.2.value) = extractAll w text := by
  induction hn : text.length using Nat.strongRecOn generalizing text with
  | ind n ih =>
    cases h : extract w text with
    | none => exact ⟨[], text, rfl, trivial, h, fun hne => absurd rfl hne,
      (extractAll_of_none h).symm⟩
    | some p =>
      obtain ⟨v, rest⟩ := p
      obtain ⟨space, t, htext, hv, hspace, hdigit⟩ := exists_token_of_extract h
      obtain ⟨numbers, rest', hrest, hapart, hfail, hlast, hwords⟩ :=
        ih _ (hn ▸ length_lt_of_extract h) rest rfl
      refine ⟨(space, t) :: numbers, rest', ?_,
        ⟨hspace, fun c hc => hdigit c ?_, hapart⟩, hfail,
        fun _ => ?_, ?_⟩
      · rw [htext, hrest, layout_cons]
        exact (List.append_assoc _ _ _).symm
      · rw [hrest, Option.mem_def, List.head?_append, Option.mem_def.mp hc]
        rfl
      · cases numbers with
        | nil =>
          rw [layout_nil, List.nil_append] at hrest
          rwa [hrest] at hdigit
        | cons number numbers => exact hlast (List.cons_ne_nil _ _)
      · rw [extractAll_of_some h, List.map_cons, hwords, hv]

end Decimal
