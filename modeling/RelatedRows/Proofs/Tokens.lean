import RelatedRows.Query.Sql

/-!
# Tokens of a statement

A database reads a statement token by token, and makes each token as long as it can: a name between double quotes, in
which a double quote is written twice; a placeholder; a word of letters; and single signs.  Blanks only separate.

* `Sql.Lexeme`: what has been read of a token, with what it comes to.
* `Sql.tokens`: the tokens of a text.
* `Sql.Spells text ts`: a text is read as some tokens, whatever stands behind it.
* `Sql.spells_identifier`, `Sql.spells_placeholder`: a written name is one token, with any characters in it, and so is a
  placeholder.
-/

namespace RelatedRows.Sql

inductive Token where
  | name (text : String)
  | placeholder (slot : Int)
  | word (text : String)
  | sign (c : Char)
  /-- A name without an end. -/
  | unended (text : String)
deriving DecidableEq, Repr

def Token.slot? : Token → Option Int
  | .placeholder slot => some slot
  | _ => none

/-! ## Reading -/

/-- What has been read of a token. -/
inductive Lexeme where
  | blank
  | name (read : List Char)
  /-- A name with a double quote behind it, which ends it unless it is followed by another one. -/
  | quoted (read : List Char)
  | placeholder (digits : List Char)
  | word (read : List Char)
  | sign (c : Char)
deriving DecidableEq, Repr

namespace Lexeme

def start (c : Char) : Lexeme :=
  if c = '"' then .name []
  else if c = '$' then .placeholder []
  else if c.isAlpha then .word [c]
  else if c = ' ' then .blank
  else .sign c

/-- A lexeme with one more character, if the character can belong to it. -/
def extend? : Lexeme → Char → Option Lexeme
  | .name read, c => if c = '"' then some (.quoted read) else some (.name (read ++ [c]))
  | .quoted read, c => if c = '"' then some (.name (read ++ ['"'])) else none
  | .placeholder digits, c => if c.isDigit then some (.placeholder (digits ++ [c])) else none
  | .word read, c => if c.isAlpha then some (.word (read ++ [c])) else none
  | .blank, _ => none
  | .sign _, _ => none

def tokens : Lexeme → List Token
  | .blank => []
  | .name read => [.unended (String.ofList read)]
  | .quoted read => [.name (String.ofList read)]
  | .placeholder [] => [.sign '$']
  | .placeholder digits => [.placeholder (Nat.ofDigitChars 10 digits 0)]
  | .word read => [.word (String.ofList read)]
  | .sign c => [.sign c]

end Lexeme

def tokensFrom : Lexeme → List Char → List Token
  | l, [] => l.tokens
  | l, c :: cs =>
    match l.extend? c with
    | some l => tokensFrom l cs
    | none => l.tokens ++ tokensFrom (.start c) cs

/-- The tokens of a text. -/
def tokens (text : String) : List Token :=
  tokensFrom .blank text.toList

example : tokens "SELECT * FROM \"a \"\" FROM b\" WHERE \"c$1\" = ANY($12)" =
    [.word "SELECT", .sign '*', .word "FROM", .name "a \" FROM b", .word "WHERE", .name "c$1", .sign '=', .word "ANY",
      .sign '(', .placeholder 12, .sign ')'] := by
  decide +kernel

/-! ## Texts in front of others -/

/-- A text begins with a blank, a comma or a bracket, which end whatever stands before them, or is empty. -/
def Follows (rest : List Char) : Prop :=
  ∀ c ∈ rest.head?, c = ' ' ∨ c = ',' ∨ c = ')'

/-- A text ends whatever stands before it. -/
def Ends (text : List Char) : Prop :=
  ∀ rest, Follows (text ++ rest)

/-- A text is read as some tokens, wherever something follows it. -/
def Spells (text : List Char) (ts : List Token) : Prop :=
  ∀ rest, Follows rest → tokensFrom .blank (text ++ rest) = ts ++ tokensFrom .blank rest

/-- A text is read as some tokens, whatever stands behind it. -/
def Opens (text : List Char) (ts : List Token) : Prop :=
  ∀ rest, tokensFrom .blank (text ++ rest) = ts ++ tokensFrom .blank rest

section Rules

variable {a b : List Char} {ts us : List Token}

theorem follows_nil : Follows [] := by
  simp [Follows]

theorem ends_cons {c : Char} (h : c = ' ' ∨ c = ',' ∨ c = ')') (cs : List Char) : Ends (c :: cs) := by
  intro _ d hd
  obtain rfl := Option.some.inj hd
  exact h

theorem ends_blank (cs : List Char) : Ends (' ' :: cs) := ends_cons (.inl rfl) cs

theorem ends_comma (cs : List Char) : Ends (',' :: cs) := ends_cons (.inr (.inl rfl)) cs

theorem ends_close (cs : List Char) : Ends (')' :: cs) := ends_cons (.inr (.inr rfl)) cs

theorem spells_nil : Spells [] [] := fun _ _ => rfl

theorem Opens.spells (h : Opens a ts) : Spells a ts := fun rest _ => h rest

theorem Opens.append_spells (ha : Opens a ts) (hb : Spells b us) : Spells (a ++ b) (ts ++ us) := by
  intro rest hrest
  rw [List.append_assoc, ha, hb rest hrest, List.append_assoc]

theorem Spells.append_opens (ha : Spells a ts) (hb : Opens b us) (hends : Ends b) : Opens (a ++ b) (ts ++ us) := by
  intro rest
  rw [List.append_assoc, ha _ (hends rest), hb, List.append_assoc]

/-- Texts between separators are read one by one. -/
theorem Spells.intercalate {α : Type} {as : List α} {f : α → List Char} {t : α → List Token}
    (h : ∀ x ∈ as, Spells (f x) (t x)) (hb : Opens b us) (hends : Ends b) :
    Spells (b.intercalate (as.map f)) (us.intercalate (as.map t)) := by
  induction as with
  | nil => exact spells_nil
  | cons x as ih =>
    have hx := h x List.mem_cons_self
    have hrest := ih fun y hy => h y (List.mem_cons_of_mem _ hy)
    cases as with
    | nil => simpa using hx
    | cons y as =>
      simp only [List.map_cons, List.intercalate_cons_cons] at hrest ⊢
      exact (hx.append_opens hb hends).append_spells hrest

theorem Spells.tokens_eq {text : String} (h : Spells text.toList ts) : tokens text = ts := by
  have hend := h [] follows_nil
  rwa [List.append_nil, tokensFrom, Lexeme.tokens, List.append_nil] at hend

end Rules

/-! ## Written tokens -/

theorem tokensFrom_of_extend?_eq_none {l : Lexeme} {rest : List Char} (h : ∀ c ∈ rest.head?, l.extend? c = none) :
    tokensFrom l rest = l.tokens ++ tokensFrom .blank rest := by
  cases rest with
  | nil => simp [tokensFrom, Lexeme.tokens]
  | cons c rest =>
    rw [tokensFrom, h c rfl, tokensFrom]
    rfl

/-- What is read up to a lexeme is the token that the lexeme comes to, unless the lexeme is a name without an end. -/
theorem spells_of_lexeme (text : List Char) (l : Lexeme) (hname : ∀ read, l ≠ .name read)
    (h : ∀ rest, tokensFrom .blank (text ++ rest) = tokensFrom l rest) : Spells text l.tokens := by
  intro rest hrest
  rw [h, tokensFrom_of_extend?_eq_none fun c hc => ?_]
  cases l with
  | name read => exact absurd rfl (hname read)
  | blank => rfl
  | sign c => rfl
  | quoted read => rcases hrest c hc with rfl | rfl | rfl <;> rfl
  | placeholder digits => rcases hrest c hc with rfl | rfl | rfl <;> rfl
  | word read => rcases hrest c hc with rfl | rfl | rfl <;> rfl

/-- Doubled quotes do not end a name. -/
theorem tokensFrom_doubled (read name rest : List Char) :
    tokensFrom (.name read) (doubled name ++ '"' :: rest) = tokensFrom (.quoted (read ++ name)) rest := by
  induction name generalizing read with
  | nil => rw [List.append_nil]; rfl
  | cons c name ih =>
    have hread : read ++ c :: name = read ++ [c] ++ name := by simp
    rw [doubled, hread, ← ih]
    split
    · next hc =>
      subst hc
      rfl
    · next hc =>
      rw [List.cons_append, tokensFrom, Lexeme.extend?, if_neg hc]

theorem spells_identifier (name : String) : Spells (identifier name).toList [.name name] := by
  have h := spells_of_lexeme (identifier name).toList (.quoted name.toList) (by simp) fun rest => ?_
  · rwa [Lexeme.tokens, String.ofList_toList] at h
  · rw [identifier, String.toList_ofList, List.append_assoc]
    exact tokensFrom_doubled [] name.toList rest

theorem tokensFrom_digits {digits : List Char} (h : ∀ c ∈ digits, c.isDigit = true) (read rest : List Char) :
    tokensFrom (.placeholder read) (digits ++ rest) = tokensFrom (.placeholder (read ++ digits)) rest := by
  induction digits generalizing read with
  | nil => rw [List.append_nil]; rfl
  | cons c digits ih =>
    have hread : read ++ c :: digits = read ++ [c] ++ digits := by simp
    rw [List.cons_append, tokensFrom, Lexeme.extend?, if_pos (h c List.mem_cons_self), hread]
    exact ih (fun d hd => h d (List.mem_cons_of_mem _ hd)) (read ++ [c])

theorem spells_placeholder (n : Nat) : Spells (placeholder n).toList [.placeholder n] := by
  have hdigits : ∀ c ∈ Nat.toDigits 10 n, c.isDigit = true :=
    fun c hc => Nat.isDigit_of_mem_toDigits (by decide) (by decide) hc
  have h := spells_of_lexeme (placeholder n).toList (.placeholder (Nat.toDigits 10 n)) (by simp) fun rest => ?_
  · have htokens : (Lexeme.placeholder (Nat.toDigits 10 n)).tokens = [.placeholder n] := by
      rw [Lexeme.tokens, Nat.ofDigitChars_toDigits (by decide) (by decide)]
      exact fun hnil => Nat.toDigits_ne_nil hnil
    rwa [htokens] at h
  · have htext : (placeholder n).toList = '$' :: Nat.toDigits 10 n := by
      rw [placeholder, String.toList_append, ← Nat.toList_repr]
      rfl
    rw [htext]
    exact tokensFrom_digits hdigits [] rest

end RelatedRows.Sql
