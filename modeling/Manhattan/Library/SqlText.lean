import Manhattan.Library.CStrings

/-! # The text of an INSERT statement

A scanner cuts SQL text into tokens byte by byte: a string literal ends at the first single
quote that is not doubled, and comments are skipped. A statement is read from the tokens if
they are one INSERT whose values are literals.
-/

namespace Manhattan.Library.SqlText

open CStrings

/-! ## Tokens -/

inductive Token
  | word (text : List Byte)
  | number (text : List Byte)
  | string (text : List Byte)
  | symbol (b : Byte)
  deriving DecidableEq

/-- What the bytes since the last token are the beginning of. -/
inductive Mode
  | between
  | word (text : List Byte)
  | number (text : List Byte)
  | string (text : List Byte)
  /-- after a quote inside a string -/
  | quote (text : List Byte)
  | dash
  | lineComment
  | slash
  | comment
  | star
  deriving DecidableEq

structure Scanner where
  tokens : List Token
  mode : Mode
  deriving DecidableEq

def quoteMark : Byte := 39

def isBlank (b : Byte) : Bool := b = 32 || b = 9 || b = 10 || b = 12 || b = 13

def isLetter (b : Byte) : Bool :=
  (65 ≤ b && b ≤ 90) || (97 ≤ b && b ≤ 122) || b = 95 || 128 ≤ b

def begin (tokens : List Token) (b : Byte) : Scanner :=
  if b = quoteMark then ⟨tokens, .string []⟩
  else if isBlank b then ⟨tokens, .between⟩
  else if isDigit b then ⟨tokens, .number [b]⟩
  else if isLetter b then ⟨tokens, .word [b]⟩
  else if b = 45 then ⟨tokens, .dash⟩
  else if b = 47 then ⟨tokens, .slash⟩
  else ⟨tokens ++ [.symbol b], .between⟩

def Scanner.step (s : Scanner) (b : Byte) : Scanner :=
  match s.mode with
  | .between => begin s.tokens b
  | .word text =>
    if isLetter b || isDigit b then ⟨s.tokens, .word (text ++ [b])⟩
    else begin (s.tokens ++ [.word text]) b
  | .number text =>
    if isLetter b || isDigit b || b = 46 then ⟨s.tokens, .number (text ++ [b])⟩
    else begin (s.tokens ++ [.number text]) b
  | .string text =>
    if b = quoteMark then ⟨s.tokens, .quote text⟩ else ⟨s.tokens, .string (text ++ [b])⟩
  | .quote text =>
    if b = quoteMark then ⟨s.tokens, .string (text ++ [b])⟩
    else begin (s.tokens ++ [.string text]) b
  | .dash => if b = 45 then ⟨s.tokens, .lineComment⟩ else begin (s.tokens ++ [.symbol 45]) b
  | .lineComment => ⟨s.tokens, if b = 10 then .between else .lineComment⟩
  | .slash => if b = 42 then ⟨s.tokens, .comment⟩ else begin (s.tokens ++ [.symbol 47]) b
  | .comment => ⟨s.tokens, if b = 42 then .star else .comment⟩
  | .star => ⟨s.tokens, if b = 47 then .between else if b = 42 then .star else .comment⟩

/-- There are no tokens if a string is not ended. -/
def Scanner.finish (s : Scanner) : Option (List Token) :=
  match s.mode with
  | .between | .lineComment | .comment | .star => some s.tokens
  | .word text => some (s.tokens ++ [.word text])
  | .number text => some (s.tokens ++ [.number text])
  | .string _ => none
  | .quote text => some (s.tokens ++ [.string text])
  | .dash => some (s.tokens ++ [.symbol 45])
  | .slash => some (s.tokens ++ [.symbol 47])

def Scanner.read (s : Scanner) (text : List Byte) : Scanner := text.foldl step s

def tokensOf (text : List Byte) : Option (List Token) := (Scanner.read ⟨[], .between⟩ text).finish

namespace Scanner

@[simp] theorem read_nil (s : Scanner) : s.read [] = s := rfl

@[simp] theorem read_cons (s : Scanner) (b : Byte) (text : List Byte) :
    s.read (b :: text) = (s.step b).read text := rfl

theorem read_append (s : Scanner) (text more : List Byte) :
    s.read (text ++ more) = (s.read text).read more := List.foldl_append

/-! ## Tokens stay -/

theorem prefix_begin (tokens : List Token) (b : Byte) : tokens <+: (begin tokens b).tokens := by
  unfold begin
  split_ifs <;> simp

theorem prefix_step (s : Scanner) (b : Byte) : s.tokens <+: (s.step b).tokens := by
  unfold step
  split <;> (try split_ifs) <;>
    first
    | exact List.prefix_rfl
    | exact prefix_begin _ _
    | exact (List.prefix_append _ _).trans (prefix_begin _ _)

theorem prefix_read (s : Scanner) (text : List Byte) : s.tokens <+: (s.read text).tokens := by
  induction text generalizing s with
  | nil => exact List.prefix_rfl
  | cons b text ih => exact (prefix_step s b).trans (ih _)

theorem prefix_finish {s : Scanner} {tokens : List Token} (h : s.finish = some tokens) :
    s.tokens <+: tokens := by
  unfold finish at h
  split at h <;> cases h <;> simp

theorem prefix_tokens {s : Scanner} {text : List Byte} {tokens : List Token}
    (h : (s.read text).finish = some tokens) : s.tokens <+: tokens :=
  (prefix_read s text).trans (prefix_finish h)

/-! ## Strings -/

theorem read_string {text : List Byte} (h : quoteMark ∉ text) (tokens : List Token)
    (before : List Byte) :
    Scanner.read ⟨tokens, .string before⟩ text = ⟨tokens, .string (before ++ text)⟩ := by
  induction text generalizing before with
  | nil => simp
  | cons b text ih =>
    rw [List.mem_cons, not_or] at h
    have hStep : Scanner.step ⟨tokens, .string before⟩ b = ⟨tokens, .string (before ++ [b])⟩ :=
      if_neg (Ne.symm h.1)
    rw [read_cons, hStep, ih h.2, List.append_assoc]
    rfl

end Scanner

/-- The text between the quotes of the literal for `text` -/
def doubled : List Byte → List Byte
  | [] => []
  | b :: text => if b = quoteMark then b :: b :: doubled text else b :: doubled text

theorem doubled_cons_of_ne {b : Byte} (h : b ≠ quoteMark) (text : List Byte) :
    doubled (b :: text) = b :: doubled text := if_neg h

theorem doubled_cons_quote (text : List Byte) :
    doubled (quoteMark :: text) = quoteMark :: quoteMark :: doubled text := if_pos rfl

/-- What a literal is read as is the text that its doubled quotes stand for. -/
theorem exists_literal (text : List Byte) :
    (∀ (before : List Byte) {tokens all : List Token},
      (Scanner.read ⟨tokens, .string before⟩ text).finish = some all →
      ∃ value more, text = doubled value ++ quoteMark :: more ∧
        tokens ++ [.string (before ++ value)] <+: all) ∧
    ∀ (before : List Byte) {tokens all : List Token},
      (Scanner.read ⟨tokens, .quote before⟩ text).finish = some all →
      ∃ value more, quoteMark :: text = doubled value ++ quoteMark :: more ∧
        tokens ++ [.string (before ++ value)] <+: all := by
  induction text with
  | nil =>
    constructor
    · nofun
    · intro before tokens all h
      refine ⟨[], [], rfl, ?_⟩
      rw [← Option.some.inj h, List.append_nil]
      exact List.prefix_rfl
  | cons b text ih =>
    obtain ⟨ihString, ihQuote⟩ := ih
    constructor
    · intro before tokens all h
      rw [Scanner.read_cons] at h
      rcases eq_or_ne b quoteMark with rfl | hb
      · exact ihQuote before h
      · have hStep : Scanner.step ⟨tokens, .string before⟩ b = ⟨tokens, .string (before ++ [b])⟩ :=
          if_neg hb
        rw [hStep] at h
        obtain ⟨value, more, rfl, hAll⟩ := ihString (before ++ [b]) h
        refine ⟨b :: value, more, ?_, ?_⟩
        · rw [doubled_cons_of_ne hb, List.cons_append]
        · rwa [List.append_assoc] at hAll
    · intro before tokens all h
      rw [Scanner.read_cons] at h
      rcases eq_or_ne b quoteMark with rfl | hb
      · obtain ⟨value, more, rfl, hAll⟩ := ihString (before ++ [quoteMark]) h
        refine ⟨quoteMark :: value, more, ?_, ?_⟩
        · rw [doubled_cons_quote, List.cons_append, List.cons_append]
        · rwa [List.append_assoc] at hAll
      · refine ⟨[], b :: text, rfl, ?_⟩
        have hStep : Scanner.step ⟨tokens, .quote before⟩ b = begin (tokens ++ [.string before]) b :=
          if_neg hb
        rw [hStep] at h
        rw [List.append_nil]
        exact (Scanner.prefix_begin _ b).trans (Scanner.prefix_tokens h)

/-- A text that a literal is read back as has no quote. -/
theorem quote_not_mem_of_doubled {b : Byte} (hb : b ≠ quoteMark) {text more rest : List Byte}
    (h : text ++ quoteMark :: b :: more = doubled text ++ quoteMark :: rest) : quoteMark ∉ text := by
  -- quotes at the start of what is left are `k` behind the doubled ones
  have hBehind : ∀ (text : List Byte) (k : Nat), text ++ quoteMark :: b :: more ≠
      List.replicate (k + 1) quoteMark ++ (doubled text ++ quoteMark :: rest) := by
    intro text
    induction text with
    | nil =>
      intro k hEq
      cases k with
      | zero => exact hb (List.cons.inj (List.cons.inj hEq).2).1
      | succ k => exact hb (List.cons.inj (List.cons.inj hEq).2).1
    | cons c text ih =>
      intro k hEq
      have hFirst : c = quoteMark := (List.cons.inj hEq).1
      subst hFirst
      apply ih (k + 1)
      rw [doubled_cons_quote] at hEq
      have hTail : text ++ quoteMark :: b :: more = List.replicate k quoteMark ++
          (quoteMark :: quoteMark :: doubled text ++ quoteMark :: rest) := (List.cons.inj hEq).2
      rw [hTail]
      simp [List.replicate_succ']
  induction text with
  | nil => exact List.not_mem_nil
  | cons c text ih =>
    rcases eq_or_ne c quoteMark with rfl | hc
    · rw [doubled_cons_quote] at h
      exact absurd (List.cons.inj h).2 (hBehind text 0)
    · rw [doubled_cons_of_ne hc] at h
      rw [List.mem_cons, not_or]
      exact ⟨Ne.symm hc, ih (List.cons.inj h).2⟩

namespace Scanner

/-- A text between quotes is read as itself if and only if it has no quote. -/
theorem quote_not_mem_of_read {tokens all : List Token} {text more : List Byte} {b : Byte}
    (hb : b ≠ quoteMark)
    (h : (read ⟨tokens, .between⟩ (quoteMark :: text ++ quoteMark :: b :: more)).finish = some all)
    (hSame : ∀ value, tokens ++ [.string value] <+: all → value = text) : quoteMark ∉ text := by
  obtain ⟨value, rest, hText, hAll⟩ := (exists_literal _).1 [] h
  obtain rfl := hSame value hAll
  exact quote_not_mem_of_doubled hb hText

end Scanner

/-! ## Statements -/

inductive Literal
  | text (chars : List Byte)
  | number (negative : Bool) (digits : List Byte)
  deriving DecidableEq

def Literal.text? : Literal → Option (List Byte)
  | .text chars => some chars
  | .number _ _ => none

structure Insert where
  table : List Byte
  columns : List (List Byte)
  values : List Literal
  deriving DecidableEq

def prepend {α β : Type*} (a : α) : Option (List α × β) → Option (List α × β) :=
  Option.map fun (l, rest) => (a :: l, rest)

/-- Names up to the parenthesis that closes them. -/
def names : List Token → Option (List (List Byte) × List Token)
  | .word name :: .symbol 44 :: rest => prepend name (names rest)
  | .word name :: .symbol 41 :: rest => some ([name], rest)
  | _ => none

def values : List Token → Option (List Literal × List Token)
  | .string text :: .symbol 44 :: rest => prepend (.text text) (values rest)
  | .string text :: .symbol 41 :: rest => some ([.text text], rest)
  | .number digits :: .symbol 44 :: rest => prepend (.number false digits) (values rest)
  | .number digits :: .symbol 41 :: rest => some ([.number false digits], rest)
  | .symbol 45 :: .number digits :: .symbol 44 :: rest =>
    prepend (.number true digits) (values rest)
  | .symbol 45 :: .number digits :: .symbol 41 :: rest => some ([.number true digits], rest)
  | _ => none

def keyword (name : String) : Token := .word (name.toList.map fun c => BitVec.ofNat 8 c.toNat)

/-- `VALUES`, the list of the values, and the end of the only statement. -/
def insertValues : List Token → Option (List Literal)
  | first :: .symbol 40 :: rest => do
    let (literals, rest) ← values rest
    if first = keyword "VALUES" ∧ (rest = [] ∨ rest = [.symbol 59]) then some literals else none
  | _ => none

def insert : List Token → Option Insert
  | first :: second :: .word table :: .symbol 40 :: rest => do
    let (columns, rest) ← names rest
    let literals ← insertValues rest
    if first = keyword "INSERT" ∧ second = keyword "INTO" then some ⟨table, columns, literals⟩
    else none
  | _ => none

def statement (text : List Byte) : Option Insert := (tokensOf text).bind insert

/-! ## Lists of values -/

/-- A value as it is printed into a statement. -/
inductive Column
  | quoted (text : List Byte)
  | plain (text : List Byte)

def Column.source : Column → List Byte
  | .quoted text => quoteMark :: text ++ [quoteMark]
  | .plain text => text

/-- The text that was printed between quotes -/
def Column.text? : Column → Option (List Byte)
  | .quoted text => some text
  | .plain _ => none

def listed : List Column → List Byte
  | [] => []
  | [column] => column.source ++ [41]
  | column :: columns => column.source ++ 44 :: 32 :: listed columns

theorem listed_cons (column next : Column) (columns : List Column) :
    listed (column :: next :: columns) = column.source ++ 44 :: 32 :: listed (next :: columns) :=
  rfl

def signed (negative : Bool) (text : List Byte) : List Byte := if negative then 45 :: text else text

def IsNumber (text : List Byte) : Prop :=
  ∃ negative c digits, text = signed negative (c :: digits) ∧ isDigit c ∧
    ∀ b ∈ digits, isDigit b ∨ b = 46

def IsWord (text : List Byte) : Prop :=
  ∃ negative c letters, text = signed negative (c :: letters) ∧ isLetter c ∧
    ∀ b ∈ letters, isLetter b

/-- Any text between quotes, and a number or a word without them. -/
def Column.Printed : Column → Prop
  | .quoted _ => True
  | .plain text => IsNumber text ∨ IsWord text

/-- A value that is a literal and has the printed text, if it has any. -/
def Column.Reads : Column → Prop
  | .quoted text => quoteMark ∉ text
  | .plain text => IsNumber text

def Literal.tokens : Literal → List Token
  | .text chars => [.string chars]
  | .number negative digits => if negative then [.symbol 45, .number digits] else [.number digits]

def signedWord (negative : Bool) (word : List Byte) : List Token :=
  if negative then [.symbol 45, .word word] else [.word word]

theorem values_signedWord (negative : Bool) (word : List Byte) (rest : List Token) :
    values (signedWord negative word ++ rest) = none := by
  cases negative <;> rfl

theorem values_comma (literal : Literal) (rest : List Token) :
    values (literal.tokens ++ .symbol 44 :: rest) = prepend literal (values rest) := by
  rcases literal with chars | ⟨_ | _, digits⟩ <;> rfl

theorem values_close (literal : Literal) (rest : List Token) :
    values (literal.tokens ++ .symbol 41 :: rest) = some ([literal], rest) := by
  rcases literal with chars | ⟨_ | _, digits⟩ <;> rfl

theorem values_string {chars : List Byte} {more rest : List Token} {literals : List Literal}
    (h : values (.string chars :: more) = some (literals, rest)) :
    literals.head? = some (.text chars) := by
  unfold values at h
  split at h
  all_goals simp_all [prepend]
  all_goals grind

namespace Scanner

theorem begin_dash {c : Byte} (h : c ≠ 45) (tokens : List Token) :
    step ⟨tokens, .dash⟩ c = begin (tokens ++ [.symbol 45]) c := if_neg h

theorem read_signed {c : Byte} (hc : isDigit c ∨ isLetter c) (negative : Bool) (text : List Byte)
    (tokens : List Token) : read ⟨tokens, .between⟩ (signed negative (c :: text)) =
      (begin (tokens ++ if negative then [.symbol 45] else []) c).read text := by
  have hDash : c ≠ 45 := by
    rintro rfl
    revert hc
    decide
  cases negative with
  | false => simp [signed, step]
  | true =>
    have hMinus : step ⟨tokens, .between⟩ 45 = ⟨tokens, .dash⟩ := rfl
    rw [signed, if_pos rfl, if_pos rfl, read_cons, hMinus, read_cons, begin_dash hDash]

theorem begin_digit {c : Byte} (hc : isDigit c) (tokens : List Token) :
    begin tokens c = ⟨tokens, .number [c]⟩ := by
  have hOther : c ≠ quoteMark ∧ isBlank c = false := by
    revert c
    decide
  rw [begin, if_neg hOther.1, if_neg (by simp [hOther.2]), if_pos hc]

theorem begin_letter {c : Byte} (hc : isLetter c) (tokens : List Token) :
    begin tokens c = ⟨tokens, .word [c]⟩ := by
  have hOther : c ≠ quoteMark ∧ isBlank c = false ∧ isDigit c = false := by
    revert c
    decide
  rw [begin, if_neg hOther.1, if_neg (by simp [hOther.2.1]), if_neg (by simp [hOther.2.2]),
    if_pos hc]

theorem read_number {digits : List Byte} (h : ∀ b ∈ digits, isDigit b ∨ b = 46)
    (before : List Byte) (tokens : List Token) :
    read ⟨tokens, .number before⟩ digits = ⟨tokens, .number (before ++ digits)⟩ := by
  induction digits generalizing before with
  | nil => simp
  | cons b digits ih =>
    rw [List.forall_mem_cons] at h
    have hStep : step ⟨tokens, .number before⟩ b = ⟨tokens, .number (before ++ [b])⟩ :=
      if_pos (by rcases h.1 with hDigit | hPoint <;> simp [*])
    rw [read_cons, hStep, ih h.2, List.append_assoc]
    rfl

theorem read_word {letters : List Byte} (h : ∀ b ∈ letters, isLetter b)
    (before : List Byte) (tokens : List Token) :
    read ⟨tokens, .word before⟩ letters = ⟨tokens, .word (before ++ letters)⟩ := by
  induction letters generalizing before with
  | nil => simp
  | cons b letters ih =>
    rw [List.forall_mem_cons] at h
    have hStep : step ⟨tokens, .word before⟩ b = ⟨tokens, .word (before ++ [b])⟩ :=
      if_pos (by simp [h.1])
    rw [read_cons, hStep, ih h.2, List.append_assoc]
    rfl

/-- A byte that ends a value in a list of values. -/
def Ends (b : Byte) : Prop := b = 44 ∨ b = 41

theorem step_end {b : Byte} (hb : Ends b) (tokens : List Token) :
    (∀ text, step ⟨tokens, .quote text⟩ b = ⟨tokens ++ [.string text, .symbol b], .between⟩) ∧
      (∀ text, step ⟨tokens, .number text⟩ b = ⟨tokens ++ [.number text, .symbol b], .between⟩) ∧
      ∀ text, step ⟨tokens, .word text⟩ b = ⟨tokens ++ [.word text, .symbol b], .between⟩ := by
  rcases hb with rfl | rfl <;> simp [step, begin, quoteMark, isBlank, isDigit, isLetter]

theorem read_source {column : Column} (h : column.Reads) {b : Byte} (hb : Ends b)
    (tokens : List Token) : ∃ literal : Literal, literal.text? = column.text? ∧
      read ⟨tokens, .between⟩ (column.source ++ [b]) =
        ⟨tokens ++ (literal.tokens ++ [.symbol b]), .between⟩ := by
  cases column with
  | quoted text =>
    refine ⟨.text text, rfl, ?_⟩
    have hOpen : step ⟨tokens, .between⟩ quoteMark = ⟨tokens, .string []⟩ := rfl
    have hClose : step ⟨tokens, .string ([] ++ text)⟩ quoteMark = ⟨tokens, .quote text⟩ := rfl
    rw [Column.source, List.cons_append, List.cons_append, read_cons, hOpen, List.append_assoc,
      read_append, read_string h]
    exact (congrArg (step · b) hClose).trans ((step_end hb tokens).1 text)
  | plain text =>
    obtain ⟨negative, c, digits, rfl, hc, hDigits⟩ := h
    refine ⟨.number negative (c :: digits), rfl, ?_⟩
    rw [Column.source, read_append, read_signed (.inl hc), begin_digit hc, read_number hDigits]
    refine ((step_end hb _).2.1 _).trans ?_
    cases negative <;> simp [Literal.tokens]

theorem read_unreadable {text : List Byte} (h : IsWord text) {b : Byte} (hb : Ends b)
    (tokens : List Token) : ∃ negative word, read ⟨tokens, .between⟩ (text ++ [b]) =
      ⟨tokens ++ (signedWord negative word ++ [.symbol b]), .between⟩ := by
  obtain ⟨negative, c, letters, rfl, hc, hLetters⟩ := h
  refine ⟨negative, c :: letters, ?_⟩
  rw [read_append, read_signed (.inr hc), begin_letter hc, read_word hLetters]
  refine ((step_end hb _).2.2 _).trans ?_
  cases negative <;> simp [signedWord]

theorem reads_of_read {column : Column} (hPrinted : column.Printed) {b : Byte} (hb : Ends b)
    {tokens all : List Token} {more : List Byte}
    (h : (read ⟨tokens, .between⟩ (column.source ++ b :: more)).finish = some (tokens ++ all))
    {literals : List Literal} {rest : List Token} (hValues : values all = some (literals, rest))
    (hFirst : literals.head?.map Literal.text? = some column.text?) : column.Reads := by
  cases column with
  | quoted text =>
    have hQuote : b ≠ quoteMark := by
      rcases hb with rfl | rfl <;> decide
    rw [Column.source, List.append_assoc] at h
    refine quote_not_mem_of_read hQuote h fun value hValue => ?_
    obtain ⟨after, hAll⟩ := hValue
    rw [List.append_assoc] at hAll
    obtain rfl := List.append_cancel_left hAll
    rw [values_string hValues] at hFirst
    exact Option.some.inj (Option.some.inj hFirst)
  | plain text =>
    rcases hPrinted with hNumber | hWord
    · exact hNumber
    · obtain ⟨negative, word, hRead⟩ := read_unreadable hWord hb tokens
      rw [Column.source, List.append_cons, read_append, hRead] at h
      obtain ⟨after, hAll⟩ := prefix_tokens h
      rw [List.append_assoc] at hAll
      obtain rfl := List.append_cancel_left hAll
      rw [List.append_assoc, values_signedWord] at hValues
      cases hValues

theorem head_of_map {columns : List Column} {column : Column} {literals : List Literal}
    (h : literals.map Literal.text? = (column :: columns).map Column.text?) :
    literals.head?.map Literal.text? = some column.text? := by
  rw [← List.head?_map, h, List.map_cons, List.head?_cons]

/-- If the values read back have the texts that were printed, each value was printed well. -/
theorem reads_of_values {columns : List Column} (hPrinted : ∀ column ∈ columns, column.Printed)
    {tokens all : List Token} {more : List Byte}
    (h : (read ⟨tokens, .between⟩ (listed columns ++ more)).finish = some (tokens ++ all))
    {literals : List Literal} {rest : List Token} (hValues : values all = some (literals, rest))
    (hTexts : literals.map Literal.text? = columns.map Column.text?) :
    ∀ column ∈ columns, column.Reads := by
  induction columns generalizing tokens all literals with
  | nil => nofun
  | cons column columns ih =>
    rw [List.forall_mem_cons] at hPrinted
    cases columns with
    | nil =>
      rw [listed, List.append_assoc] at h
      have hReads := reads_of_read hPrinted.1 (.inr rfl) h hValues (head_of_map hTexts)
      simpa using hReads
    | cons next columns =>
      rw [listed_cons, List.append_assoc] at h
      have hReads := reads_of_read hPrinted.1 (.inl rfl) h hValues (head_of_map hTexts)
      obtain ⟨literal, hText, hRead⟩ := read_source hReads (.inl rfl : Ends 44) tokens
      have hBlank : step ⟨tokens ++ (literal.tokens ++ [.symbol 44]), .between⟩ 32 =
        ⟨tokens ++ (literal.tokens ++ [.symbol 44]), .between⟩ := rfl
      rw [List.cons_append, List.append_cons, read_append, hRead, List.cons_append, read_cons,
        hBlank] at h
      obtain ⟨after, hAll⟩ := prefix_tokens h
      rw [List.append_assoc] at hAll
      obtain rfl := List.append_cancel_left hAll
      rw [← List.append_assoc tokens _ after] at h
      rw [List.append_assoc, List.singleton_append, values_comma] at hValues
      obtain ⟨⟨others, _⟩, hOthers, hEq⟩ := Option.map_eq_some_iff.mp hValues
      obtain ⟨rfl, rfl⟩ := Prod.mk.inj hEq
      rw [List.forall_mem_cons]
      exact ⟨hReads, ih hPrinted.2 h hOthers (List.cons.inj hTexts).2⟩

/-- Values that are printed well are read back. -/
theorem values_of_reads {columns : List Column} (hColumns : columns ≠ [])
    (h : ∀ column ∈ columns, column.Reads) (tokens : List Token) :
    ∃ all, read ⟨tokens, .between⟩ (listed columns) = ⟨tokens ++ all, .between⟩ ∧
      ∀ rest, ∃ literals, values (all ++ rest) = some (literals, rest) ∧
        literals.map Literal.text? = columns.map Column.text? := by
  induction columns generalizing tokens with
  | nil => exact absurd rfl hColumns
  | cons column columns ih =>
    rw [List.forall_mem_cons] at h
    cases columns with
    | nil =>
      obtain ⟨literal, hText, hRead⟩ := read_source h.1 (.inr rfl : Ends 41) tokens
      refine ⟨literal.tokens ++ [.symbol 41], ?_, fun rest => ⟨[literal], ?_, ?_⟩⟩
      · rw [listed, hRead]
      · rw [List.append_assoc, List.singleton_append, values_close]
      · rw [List.map_singleton, List.map_singleton, hText]
    | cons next columns =>
      obtain ⟨literal, hText, hRead⟩ := read_source h.1 (.inl rfl : Ends 44) tokens
      obtain ⟨all, hAll, hValues⟩ :=
        ih (by simp) h.2 (tokens ++ (literal.tokens ++ [.symbol 44]))
      refine ⟨literal.tokens ++ [.symbol 44] ++ all, ?_, fun rest => ?_⟩
      · have hBlank : step ⟨tokens ++ (literal.tokens ++ [.symbol 44]), .between⟩ 32 =
          ⟨tokens ++ (literal.tokens ++ [.symbol 44]), .between⟩ := rfl
        rw [listed_cons, List.append_cons, read_append, hRead, read_cons, hBlank, hAll,
          List.append_assoc]
      · obtain ⟨literals, hLiterals, hTexts⟩ := hValues rest
        refine ⟨literal :: literals, ?_, ?_⟩
        · rw [List.append_assoc, List.append_assoc, List.singleton_append, values_comma,
            hLiterals]
          rfl
        · rw [List.map_cons, hText, hTexts, ← List.map_cons]

end Scanner

end Manhattan.Library.SqlText
