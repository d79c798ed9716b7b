import BorgCore.Lib.EcmaScript

/-!
# What a module binds

The names that a module declares and those that it imports, read off its tokens.  A declaration counts outside of all
braces; an import binds the last name of each of its entries.
-/

namespace BorgCore

namespace EcmaScript

/-- What a name is declared as; the two do not clash with each other. -/
inductive Space where
  | type
  | value
deriving DecidableEq

def leftBrace : Token := .punctuator ['{']

def rightBrace : Token := .punctuator ['}']

def binders : List (List Char) :=
  [['c', 'l', 'a', 's', 's'], ['c', 'o', 'n', 's', 't'], ['e', 'n', 'u', 'm'], ['f', 'u', 'n', 'c', 't', 'i', 'o', 'n'],
    ['l', 'e', 't'], ['v', 'a', 'r']]

def importing : List Char := ['i', 'm', 'p', 'o', 'r', 't']

/-- What a keyword declares the name after it as. -/
def declares : Token → Option Space
  | .keyword word =>
    if word = ['i', 'n', 't', 'e', 'r', 'f', 'a', 'c', 'e'] then some .type
    else if binders.contains word then some .value
    else none
  | _ => none

/-- How many braces are open, and what the next name is declared as. -/
structure Scope where
  depth : Nat
  pending : Option Space
deriving DecidableEq

def declareStep : Transducer Scope Token (Space × List Char) := fun scope token =>
  if token = leftBrace then some (⟨scope.depth + 1, none⟩, [])
  else if token = rightBrace then some (⟨scope.depth - 1, none⟩, [])
  else
    match token with
    | .identifier name => some (⟨scope.depth, none⟩, (scope.pending.map fun space => (space, name)).toList)
    | token => some (⟨scope.depth, if scope.depth = 0 then declares token else none⟩, [])

def declarations (tokens : List Token) : List (Space × List Char) :=
  ((Transducer.run declareStep ⟨0, none⟩ tokens).map Prod.snd).getD []

/-- Where a reader of imports is. -/
inductive Importing where
  | outside
  | opening
  /-- In an entry, after this name. -/
  | entry (last : Option (List Char))
deriving DecidableEq

def importStep : Transducer Importing Token (List Char) := fun state token =>
  match state, token with
  | .outside, .keyword word => some (if word = importing then .opening else .outside, [])
  | .outside, _ => some (.outside, [])
  | .opening, token => some (if token = leftBrace then .entry none else .outside, [])
  | .entry _, .identifier name => some (.entry (some name), [])
  | .entry _, .keyword word => some (.entry (some word), [])
  | .entry last, token =>
    if token = rightBrace then some (.outside, last.toList)
    else if token = .punctuator [','] then some (.entry none, last.toList)
    else some (.entry last, [])

/-- The names that a module imports, as it calls them. -/
def imported (tokens : List Token) : List (List Char) :=
  ((Transducer.run importStep .outside tokens).map Prod.snd).getD []

/-! ### Parts that bind nothing -/

variable {tokens : List Token} {names : List (List Char)} {scope : Scope}

/-- Between braces nothing is declared. -/
theorem declareStep_inside {depth : Nat} (h : ∀ token ∈ tokens, token ≠ leftBrace ∧ token ≠ rightBrace) :
    Transducer.run declareStep ⟨depth + 1, none⟩ tokens = some (⟨depth + 1, none⟩, []) := by
  induction tokens with
  | nil => rfl
  | cons token rest ih =>
    obtain ⟨⟨hleft, hright⟩, hrest⟩ := List.forall_mem_cons.1 h
    have hstep : declareStep ⟨depth + 1, none⟩ token = some (⟨depth + 1, none⟩, []) := by
      cases token <;> simp [declareStep, hleft, hright]
    exact Transducer.run_cons hstep (ih hrest)

theorem importStep_outside (h : ∀ token ∈ tokens, token ≠ .keyword importing) :
    Transducer.run importStep .outside tokens = some (.outside, []) := by
  induction tokens with
  | nil => rfl
  | cons token rest ih =>
    obtain ⟨hne, hrest⟩ := List.forall_mem_cons.1 h
    have hstep : importStep .outside token = some (.outside, []) := by
      cases token with
      | keyword word =>
        have hword : word ≠ importing := fun heq => hne (congrArg Token.keyword heq)
        simp only [importStep, if_neg hword]
      | _ => rfl
    exact Transducer.run_cons hstep (ih hrest)

theorem declarations_eq {read : List (Space × List Char)}
    (h : Transducer.run declareStep ⟨0, none⟩ tokens = some (scope, read)) :
    declarations tokens = read := by
  rw [declarations, h]
  rfl

theorem imported_eq {state : Importing} (h : Transducer.run importStep .outside tokens = some (state, names)) :
    imported tokens = names := by
  rw [imported, h]
  rfl

end EcmaScript

end BorgCore
