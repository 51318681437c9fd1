/- Cil/Parser/Lexer
   digest: The tokens of a buffer, and the texts that symbols and quoted strings can hold. -/

import Cil.Name
import Cil.Library.LongestMatch

set_option autoImplicit false
set_option relaxedAutoImplicit false

namespace Cil.Parser

open Library.LongestMatch

/-- The constants of `cil_lexer.h`. -/
inductive TokenType
  | oparen | cparen | symbol | qstring | comment | endOfFile | unknown
  deriving DecidableEq, Repr

/-- `struct token`. -/
structure Token where
  type : TokenType
  value : Text
  line : Nat
  deriving DecidableEq, Repr

/-- `spec_char`. The quote and the grave accent are written by their codes. -/
def specChars : List Char :=
  ['[', ']', '.', '@', '=', '/', '*', '-', '_', '$', '%', '+', '-', '!', '|', '&', '^', ':',
    '~', '\x60', '#', '{', '}', '\x27', '<', '>', '?', ',']

/-- A character of a symbol: a digit, a letter or a `spec_char`. -/
def isSymbolChar (c : Char) : Bool := c.isDigit || c.isAlpha || specChars.contains c

/-- A character that may stand between the quotes of a `qstring`. -/
def isQuotedChar (c : Char) : Bool := c != '"' && c != '\n'

/-- One of the characters. -/
def oneOf (chars : List Char) : Text → Option Nat
  | [] => none
  | c :: _ => if chars.contains c then some 1 else none

/-- `comment`. -/
def comment : Text → Option Nat
  | ';' :: rest => some (1 + (rest.takeWhile (· != '\n')).length)
  | _ => none

/-- `symbol`. -/
def symbol (text : Text) : Option Nat :=
  let n := (text.takeWhile isSymbolChar).length
  if n = 0 then none else some n

/-- `qstring`. -/
def qstring : Text → Option Nat
  | '"' :: rest =>
      let n := (rest.takeWhile isQuotedChar).length
      if rest[n]? = some '"' then some (n + 2) else none
  | _ => none

/-- The pattern `.`: whatever is not the end of a line. -/
def anyChar : Text → Option Nat
  | [] => none
  | c :: _ => if c = '\n' then none else some 1

/-- What the scanner does with a match. -/
inductive Action
  | newline
  | white
  | emit (type : TokenType)
  deriving DecidableEq, Repr

/-- The rules of `cil_lexer.l` in their order. -/
def rules : List (Rule Char Action) :=
  [⟨oneOf ['\n', '\r'], .newline⟩,
   ⟨comment, .emit .comment⟩,
   ⟨oneOf ['('], .emit .oparen⟩,
   ⟨oneOf [')'], .emit .cparen⟩,
   ⟨symbol, .emit .symbol⟩,
   ⟨oneOf [' ', '\t'], .white⟩,
   ⟨qstring, .emit .qstring⟩,
   ⟨anyChar, .emit .unknown⟩]

/-- The scanner: what is left of the buffer, and the variables `value` and `line`. -/
structure Scanner where
  rest : Text
  value : Text
  line : Nat

/-- The turns of `yylex` up to the next token. Every turn takes something from the buffer, so
that as much fuel as there are characters is enough. -/
def yylexTurns : Nat → Scanner → TokenType × Scanner
  | 0, s => (.endOfFile, s)
  | fuel + 1, s =>
      match select s.rest rules with
      | none => (.endOfFile, s)
      | some (n, .newline) =>
          yylexTurns fuel { s with rest := s.rest.drop n, line := s.line + 1 }
      | some (n, .white) => yylexTurns fuel { s with rest := s.rest.drop n }
      | some (n, .emit type) =>
          (type, { s with rest := s.rest.drop n, value := s.rest.take n })

/-- `yylex`. -/
def yylex (s : Scanner) : TokenType × Scanner := yylexTurns s.rest.length s

/-- `cil_lexer_next`. -/
def lexerNext (s : Scanner) : Token × Scanner :=
  let (type, s') := yylex s
  (⟨type, s'.value, s'.line⟩, s')

/-- `cil_lexer_setup`. -/
def lexerSetup (buffer : Text) : Scanner := ⟨buffer, [], 1⟩

/-- The tokens up to the end of the file. -/
def tokensFrom : Nat → Scanner → List Token
  | 0, _ => []
  | fuel + 1, s =>
      let (tok, s') := lexerNext s
      if tok.type = .endOfFile then [] else tok :: tokensFrom fuel s'

/-- The tokens of a buffer without the end of the file. -/
def tokens (buffer : Text) : List Token := tokensFrom (buffer.length + 1) (lexerSetup buffer)

attribute [simp] yylexTurns tokensFrom

private theorem oneOf_some {chars : List Char} {text : Text} {n : Nat}
    (h : oneOf chars text = some n) :
    n = 1 ∧ 1 ≤ text.length := by
  cases text with
  | nil => cases h
  | cons c rest =>
    simp only [oneOf] at h
    split_ifs at h
    exact ⟨(Option.some.inj h).symm, by simp⟩

private theorem comment_some {text : Text} {n : Nat} (h : comment text = some n) :
    1 ≤ n ∧ n ≤ text.length := by
  unfold comment at h
  split at h
  · rename_i rest
    have hn := Option.some.inj h
    have hle := (List.takeWhile_sublist (l := rest) (· != '\n')).length_le
    simp only [List.length_cons]
    omega
  · cases h

private theorem symbol_some {text : Text} {n : Nat} (h : symbol text = some n) :
    1 ≤ n ∧ n = (text.takeWhile isSymbolChar).length := by
  simp only [symbol] at h
  split_ifs at h with hzero
  have hn := Option.some.inj h
  omega

private theorem qstring_some {text : Text} {n : Nat} (h : qstring text = some n) :
    ∃ body rest, text = '"' :: body ++ '"' :: rest ∧ n = body.length + 2 ∧
      ∀ c ∈ body, isQuotedChar c = true := by
  unfold qstring at h
  split at h
  · rename_i after
    dsimp only at h
    split_ifs at h with hquote
    have hn := Option.some.inj h
    have hsplit := List.takeWhile_append_dropWhile (p := isQuotedChar) (l := after)
    have hdrop : after.dropWhile isQuotedChar
        = after.drop (after.takeWhile isQuotedChar).length := by
      have hlength := congrArg (List.drop (after.takeWhile isQuotedChar).length) hsplit
      rwa [List.drop_left] at hlength
    have hhead : (after.dropWhile isQuotedChar)[0]? = some '"' := by
      rw [hdrop, List.getElem?_drop, Nat.add_zero]
      exact hquote
    cases hrest : after.dropWhile isQuotedChar with
    | nil =>
      rw [hrest] at hhead
      cases hhead
    | cons c rest =>
      rw [hrest, List.getElem?_cons_zero, Option.some.injEq] at hhead
      rw [hrest, hhead] at hsplit
      refine ⟨after.takeWhile isQuotedChar, rest, ?_, hn.symm, fun c hc => ?_⟩
      · rw [List.cons_append, hsplit]
      · exact List.all_eq_true.mp List.all_takeWhile c hc
  · cases h

private theorem anyChar_some {text : Text} {n : Nat} (h : anyChar text = some n) :
    n = 1 ∧ 1 ≤ text.length := by
  cases text with
  | nil => cases h
  | cons c rest =>
    simp only [anyChar] at h
    split_ifs at h
    exact ⟨(Option.some.inj h).symm, by simp⟩

/-- A match is not empty and does not pass the end. -/
private theorem longest_some {r : Rule Char Action} (hr : r ∈ rules) {text : Text} {n : Nat}
    (h : r.longest text = some n) : 1 ≤ n ∧ n ≤ text.length := by
  have hone : ∀ {chars : List Char}, oneOf chars text = some n → 1 ≤ n ∧ n ≤ text.length := by
    intro chars h
    obtain ⟨hn, hle⟩ := oneOf_some h
    omega
  simp only [rules, List.mem_cons, List.not_mem_nil, or_false] at hr
  rcases hr with rfl | rfl | rfl | rfl | rfl | rfl | rfl | rfl
  · exact hone h
  · exact comment_some h
  · exact hone h
  · exact hone h
  · obtain ⟨hpos, hn⟩ := symbol_some h
    have hle := (List.takeWhile_sublist (l := text) isSymbolChar).length_le
    exact ⟨hpos, by omega⟩
  · exact hone h
  · obtain ⟨body, rest, htext, hn, -⟩ := qstring_some h
    rw [htext, hn]
    simp only [List.length_append, List.length_cons]
    omega
  · obtain ⟨hn, hle⟩ := anyChar_some h
    omega

/-- Whatever stands in a buffer is matched by some rule. -/
private theorem select_cons (c : Char) (rest : Text) :
    ∃ n action, select (c :: rest) rules = some (n, action) := by
  by_cases hc : c = '\n'
  · have hmem : (⟨oneOf ['\n', '\r'], .newline⟩ : Rule Char Action) ∈ rules := by
      simp [rules]
    have hmatch : (⟨oneOf ['\n', '\r'], .newline⟩ : Rule Char Action).longest (c :: rest)
        = some 1 := by
      simp [oneOf, hc]
    obtain ⟨n, action, h, -⟩ := select_longest hmem hmatch
    exact ⟨n, action, h⟩
  · have hmem : (⟨anyChar, .emit .unknown⟩ : Rule Char Action) ∈ rules := by simp [rules]
    have hmatch : (⟨anyChar, .emit .unknown⟩ : Rule Char Action).longest (c :: rest)
        = some 1 := by
      simp [anyChar, hc]
    obtain ⟨n, action, h, -⟩ := select_longest hmem hmatch
    exact ⟨n, action, h⟩

/-- What a token of the type can read. -/
def Shaped : TokenType → Text → Prop
  | .symbol, value => value ≠ [] ∧ ∀ c ∈ value, isSymbolChar c = true
  | .qstring, value => ∃ body, value = '"' :: body ++ ['"'] ∧ ∀ c ∈ body, isQuotedChar c = true
  | .endOfFile, _ => False
  | _, _ => True

private theorem emit_shaped {r : Rule Char Action} (hr : r ∈ rules) {type : TokenType}
    (haction : r.action = .emit type) {text : Text} {n : Nat} (h : r.longest text = some n) :
    Shaped type (text.take n) := by
  simp only [rules, List.mem_cons, List.not_mem_nil, or_false] at hr
  rcases hr with rfl | rfl | rfl | rfl | rfl | rfl | rfl | rfl
  · cases haction
  · cases haction
    trivial
  · cases haction
    trivial
  · cases haction
    trivial
  · cases haction
    obtain ⟨hpos, hn⟩ := symbol_some h
    have htake : text.take n = text.takeWhile isSymbolChar := by
      rw [hn]
      exact (List.prefix_iff_eq_take.mp (List.takeWhile_prefix isSymbolChar)).symm
    rw [htake]
    refine ⟨fun hnil => ?_, fun c hc => List.all_eq_true.mp List.all_takeWhile c hc⟩
    rw [hnil, List.length_nil] at hn
    omega
  · cases haction
  · cases haction
    obtain ⟨body, rest, htext, hn, hbody⟩ := qstring_some h
    refine ⟨body, ?_, hbody⟩
    have hlength : n = ('"' :: body ++ ['"']).length := by simp [hn]
    have hwhole : text = ('"' :: body ++ ['"']) ++ rest := by simp [htext]
    rw [hlength, hwhole, List.take_left]
  · cases haction
    trivial

/-- A turn of the scanner ends at the end of the buffer, or with a token of which something was
read. -/
private theorem yylexTurns_spec (fuel : Nat) (s : Scanner) (hfuel : s.rest.length ≤ fuel) :
    ((yylexTurns fuel s).1 = .endOfFile ∧ (yylexTurns fuel s).2.rest = []) ∨
      (Shaped (yylexTurns fuel s).1 (yylexTurns fuel s).2.value ∧
        (yylexTurns fuel s).2.rest.length < s.rest.length) := by
  induction fuel generalizing s with
  | zero => exact Or.inl ⟨rfl, List.eq_nil_of_length_eq_zero (Nat.le_zero.mp hfuel)⟩
  | succ fuel ih =>
    cases hrest : s.rest with
    | nil =>
      have hselect : select s.rest rules = none := by
        rw [hrest]
        simp [rules, oneOf, comment, symbol, qstring, anyChar]
      left
      simp only [yylexTurns, hselect]
      exact ⟨trivial, hrest⟩
    | cons c rest =>
      obtain ⟨n, action, hselect⟩ := select_cons c rest
      obtain ⟨r, hr, hn, haction⟩ := select_mem hselect
      obtain ⟨hpos, hle⟩ := longest_some hr hn
      rw [← hrest] at hselect hn hle
      have hshorter : (s.rest.drop n).length < s.rest.length := by
        rw [List.length_drop]
        omega
      have hcons : (c :: rest).length = s.rest.length := by rw [hrest]
      rw [hcons]
      cases action with
      | newline =>
        simp only [yylexTurns, hselect]
        rcases ih { s with rest := s.rest.drop n, line := s.line + 1 }
            (by dsimp only; omega) with hend | ⟨hshape, hless⟩
        · exact Or.inl hend
        · exact Or.inr ⟨hshape, Nat.lt_trans hless hshorter⟩
      | white =>
        simp only [yylexTurns, hselect]
        rcases ih { s with rest := s.rest.drop n } (by dsimp only; omega) with
          hend | ⟨hshape, hless⟩
        · exact Or.inl hend
        · exact Or.inr ⟨hshape, Nat.lt_trans hless hshorter⟩
      | emit type =>
        simp only [yylexTurns, hselect]
        exact Or.inr ⟨emit_shaped hr haction hn, hshorter⟩

/-- `cil_lexer_next` gives the end of the file, or a token of which something was read. -/
theorem lexerNext_spec (s : Scanner) :
    (lexerNext s).1.type = .endOfFile ∨
      (Shaped (lexerNext s).1.type (lexerNext s).1.value ∧
        (lexerNext s).2.rest.length < s.rest.length) := by
  rcases yylexTurns_spec s.rest.length s (Nat.le_refl _) with ⟨hend, -⟩ | hshape
  · exact Or.inl hend
  · exact Or.inr hshape

theorem tokensFrom_shaped (fuel : Nat) (s : Scanner) :
    ∀ tok ∈ tokensFrom fuel s, Shaped tok.type tok.value := by
  induction fuel generalizing s with
  | zero => exact fun tok htok => (List.not_mem_nil htok).elim
  | succ fuel ih =>
    intro tok htok
    simp only [tokensFrom] at htok
    split_ifs at htok with hend
    · exact (List.not_mem_nil htok).elim
    · rcases List.mem_cons.mp htok with heq | hmem
      · rw [heq]
        exact ((lexerNext_spec s).resolve_left hend).1
      · exact ih _ tok hmem

/-- The text that the parser keeps of a symbol or of a quoted string: the quotes are dropped. -/
def tokenData (tok : Token) : Text :=
  if tok.type = .qstring then tok.value.dropLast.drop 1 else tok.value

private theorem tokenData_quoted {buffer : Text} {tok : Token} (h : tok ∈ tokens buffer)
    (htype : tok.type = .symbol ∨ tok.type = .qstring) :
    ∀ c ∈ tokenData tok, isQuotedChar c = true := by
  have hshape := tokensFrom_shaped _ _ tok h
  rcases htype with hsymbol | hqstring
  · rw [hsymbol] at hshape
    have hdata : tokenData tok = tok.value := by simp [tokenData, hsymbol]
    rw [hdata]
    intro c hc
    have hchar : isSymbolChar c = true := hshape.2 c hc
    have hquote : c ≠ '"' := fun heq => absurd (heq ▸ hchar) (by decide)
    have hline : c ≠ '\n' := fun heq => absurd (heq ▸ hchar) (by decide)
    simp [isQuotedChar, hquote, hline]
  · rw [hqstring] at hshape
    obtain ⟨body, hvalue, hbody⟩ := hshape
    have hdata : tokenData tok = body := by
      rw [tokenData, if_pos hqstring, hvalue, List.dropLast_concat]
      rfl
    rw [hdata]
    exact hbody

/-- A token reads what stands in the buffer. -/
private theorem yylexTurns_subset (fuel : Nat) (s : Scanner)
    (htype : (yylexTurns fuel s).1 ≠ .endOfFile) :
    (∀ c ∈ (yylexTurns fuel s).2.value, c ∈ s.rest) ∧
      ∀ c ∈ (yylexTurns fuel s).2.rest, c ∈ s.rest := by
  induction fuel generalizing s with
  | zero => exact absurd rfl htype
  | succ fuel ih =>
    cases hselect : select s.rest rules with
    | none =>
      simp only [yylexTurns, hselect] at htype
      exact absurd rfl htype
    | some found =>
      obtain ⟨n, action⟩ := found
      cases action with
      | newline =>
        simp only [yylexTurns, hselect] at htype ⊢
        obtain ⟨hvalue, hrest⟩ := ih _ htype
        exact ⟨fun c hc => List.mem_of_mem_drop (hvalue c hc),
          fun c hc => List.mem_of_mem_drop (hrest c hc)⟩
      | white =>
        simp only [yylexTurns, hselect] at htype ⊢
        obtain ⟨hvalue, hrest⟩ := ih _ htype
        exact ⟨fun c hc => List.mem_of_mem_drop (hvalue c hc),
          fun c hc => List.mem_of_mem_drop (hrest c hc)⟩
      | emit type =>
        simp only [yylexTurns, hselect] at htype ⊢
        exact ⟨fun c hc => List.mem_of_mem_take hc, fun c hc => List.mem_of_mem_drop hc⟩

private theorem tokensFrom_subset (fuel : Nat) (s : Scanner) {tok : Token}
    (h : tok ∈ tokensFrom fuel s) : ∀ c ∈ tok.value, c ∈ s.rest := by
  induction fuel generalizing s with
  | zero => exact (List.not_mem_nil h).elim
  | succ fuel ih =>
    simp only [tokensFrom] at h
    split_ifs at h with hend
    · exact (List.not_mem_nil h).elim
    · obtain ⟨hvalue, hrest⟩ := yylexTurns_subset s.rest.length s hend
      rcases List.mem_cons.mp h with heq | hmem
      · rw [heq]
        exact hvalue
      · exact fun c hc => hrest c (ih _ hmem c hc)

/-- The NUL at the end of a string. -/
def nul : Char := '\x00'

/-- The texts that symbols and quoted strings of a buffer leave in the tree. -/
def Deliverable (text : Text) : Prop :=
  ∃ buffer : Text, nul ∉ buffer ∧
    ∃ tok ∈ tokens buffer, (tok.type = .symbol ∨ tok.type = .qstring) ∧ text = tokenData tok

private theorem tokens_quoted {text : Text} (h : ∀ c ∈ text, isQuotedChar c = true) :
    tokens ('"' :: text ++ ['"']) = [⟨.qstring, '"' :: text ++ ['"'], 1⟩] := by
  have htake : (text ++ ['"']).takeWhile isQuotedChar = text := by
    rw [List.takeWhile_append_of_pos h]
    simp [isQuotedChar]
  have hqstring : qstring ('"' :: text ++ ['"']) = some (text.length + 2) := by
    simp only [List.cons_append, qstring, htake]
    simp
  have hselect : select ('"' :: text ++ ['"']) rules
      = some (text.length + 2, .emit .qstring) := by
    simp only [rules, select, hqstring]
    have hsymbol : isSymbolChar '"' = false := by decide
    simp [oneOf, comment, symbol, anyChar, hsymbol]
  have hlex : lexerNext (lexerSetup ('"' :: text ++ ['"']))
      = (⟨.qstring, '"' :: text ++ ['"'], 1⟩, ⟨[], '"' :: text ++ ['"'], 1⟩) := by
    have hlength : ('"' :: text ++ ['"']).length = (text.length + 1) + 1 := by simp
    simp only [lexerNext, yylex, lexerSetup]
    rw [hlength, yylexTurns]
    simp only [hselect]
    have hwhole : text.length + 2 = ('"' :: text ++ ['"']).length := by simp
    rw [hwhole, List.take_length, List.drop_length]
  have hend : ∀ fuel, tokensFrom fuel ⟨[], '"' :: text ++ ['"'], 1⟩ = [] := by
    intro fuel
    cases fuel with
    | zero => rfl
    | succ fuel => rfl
  rw [tokens, tokensFrom, hlex]
  dsimp only
  rw [if_neg (by decide), hend]

example : (tokens ['(', 'a', ' ', '"', ';', '"', ')', ';', 'b']).map (·.type)
    = [.oparen, .symbol, .qstring, .cparen, .comment] := by decide

/-- Any text without quotes and ends of lines can be delivered. -/
theorem deliverable_iff {text : Text} :
    Deliverable text ↔ (∀ c ∈ text, isQuotedChar c = true) ∧ nul ∉ text := by
  constructor
  · intro h
    obtain ⟨buffer, hnul, tok, htok, htype, heq⟩ := h
    rw [heq]
    refine ⟨tokenData_quoted htok htype, fun hmem => hnul ?_⟩
    have hvalue : nul ∈ tok.value := by
      unfold tokenData at hmem
      split_ifs at hmem
      · exact List.dropLast_subset _ (List.mem_of_mem_drop hmem)
      · exact hmem
    exact tokensFrom_subset _ _ htok nul hvalue
  · intro h
    obtain ⟨hquoted, hnul⟩ := h
    have htoken :
        (⟨.qstring, '"' :: text ++ ['"'], 1⟩ : Token) ∈ tokens ('"' :: text ++ ['"']) := by
      rw [tokens_quoted hquoted]
      exact List.mem_singleton_self _
    refine ⟨'"' :: text ++ ['"'], ?_, _, htoken, Or.inr rfl, ?_⟩
    · have hquote : nul ≠ '"' := by decide
      simp [hquote, hnul]
    · rw [tokenData, if_pos rfl, List.dropLast_concat]
      rfl

end Cil.Parser
