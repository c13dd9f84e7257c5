import MagSyntax.Grammar.Input
import MagSyntax.Grammar.Memo

/-!
Parsing steps. A step runs on a set-up, which does not change, and on a progress, which survives a
failure: the cursor stays where the failing step left it. Alternatives are tried in order from the
same token, and the complaint that reaches furthest is the one reported.
-/

namespace MagSyntax

structure Setup where
  input : Input
  /-- Outcomes of the remembered rules are looked up and stored. -/
  remembers : Bool := true
  /-- How many nested rules may be open at once, if that is bounded. -/
  nesting : Option Nat := some 256

structure Progress where
  cursor : Nat
  depth : Nat
  memo : Memo
  /-- A nested rule has been refused because too many were open. -/
  refused : Bool
  /-- How many nested rules have been open at once in what is kept so far. -/
  deepest : Nat := 0

namespace Progress

/-- On a parser that has done nothing yet, at a token and with so many nested rules open. -/
def within (cursor depth : Nat) : Progress :=
  { cursor, depth, memo := .empty, refused := false, deepest := depth }

@[simp] theorem cursor_within (cursor depth : Nat) : (within cursor depth).cursor = cursor := rfl

@[simp] theorem depth_within (cursor depth : Nat) : (within cursor depth).depth = depth := rfl

@[simp] theorem memo_within (cursor depth : Nat) : (within cursor depth).memo = .empty := rfl

def start : Progress := within 0 0

def deeper (p : Progress) : Progress :=
  { p with depth := p.depth + 1, deepest := max p.deepest (p.depth + 1) }

@[simp] theorem deeper_within (cursor depth : Nat) : (within cursor depth).deeper = within cursor (depth + 1) := by
  simp [within, deeper]

/-- Behind the token at the cursor; the end of the input stays there. -/
def pastToken (p : Progress) (input : Input) : Progress :=
  if (input.get p.cursor).kind = .eof then p else { p with cursor := p.cursor + 1 }

end Progress

inductive Failure
  /-- The tokens do not match; an alternative may. -/
  | mismatch (error : SyntaxError)
  /-- A list cannot be closed by this kind of token. -/
  | unclosable (kind : TokenKind)
  /-- More rules are open than may be. -/
  | exhausted

/-- The failure as an error about a token: whatever has no error of its own is nested too deeply. -/
def Failure.asError (f : Failure) (token : Token) : SyntaxError :=
  match f with
  | .mismatch e => e
  | .unclosable _ | .exhausted => .ofToken .tooDeep token

/-- What a step comes to; a failure keeps the progress too. -/
inductive Parse.Outcome (α : Type)
  | ok (value : α) (progress : Progress)
  | failed (failure : Failure) (progress : Progress)

def Parse.Outcome.progress {α : Type} : Parse.Outcome α → Progress
  | .ok _ p => p
  | .failed _ p => p

structure Parse (α : Type) where
  run : Setup → Progress → Parse.Outcome α

namespace Parse

@[always_inline, inline]
def done {α : Type} (value : α) : Parse α := ⟨fun _ p => .ok value p⟩

@[always_inline, inline]
def andThen {α β : Type} (first : Parse α) (next : α → Parse β) : Parse β :=
  ⟨fun setup p =>
    match first.run setup p with
    | .ok value q => (next value).run setup q
    | .failed failure q => .failed failure q⟩

instance : Monad Parse where
  pure := done
  bind := andThen

def fail {α : Type} (failure : Failure) : Parse α := ⟨fun _ p => .failed failure p⟩

def current : Parse Token := ⟨fun setup p => .ok (setup.input.get p.cursor) p⟩

def seek (cursor : Nat) : Parse Unit := ⟨fun _ p => .ok () { p with cursor }⟩

def advance : Parse Token :=
  ⟨fun setup p => .ok (setup.input.get p.cursor) (p.pastToken setup.input)⟩

def check (kinds : List TokenKind) : Parse Bool := do
  return (← current).kind ∈ kinds

def sees (kind : TokenKind) : Parse Bool := check [kind]

def accept (kinds : List TokenKind) : Parse (Option Token) := do
  if ← check kinds then return some (← advance) else return none

/-- Takes the token at the cursor if it is of this kind, and tells whether it did. -/
def skip (kind : TokenKind) : Parse Bool := return (← accept [kind]).isSome

def complainAt {α : Type} (token : Token) (complaint : Complaint) : Parse α :=
  fail (.mismatch (.ofToken complaint token))

def complain {α : Type} (complaint : Complaint) : Parse α := do
  complainAt (← current) complaint

def expectOne (kinds : List TokenKind) (complaint : Complaint) : Parse Token := do
  match ← accept kinds with
  | some token => return token
  | none => complain complaint

def expectKind (kinds : List TokenKind) : Parse Token := expectOne kinds (.oneOf kinds)

def expect (kind : TokenKind) (complaint : Complaint) : Parse Unit := do
  discard (expectOne [kind] complaint)

/-- Of two errors the one that is further into the input, and the earlier of two at the same place. -/
def further (earlier later : SyntaxError) : SyntaxError :=
  if later.place.position > earlier.place.position then later else earlier

def attemptAfter {α : Type} (start : Nat) (furthest : SyntaxError) : List (Parse α) → Parse α
  | [] => fail (.mismatch furthest)
  | alternative :: others => ⟨fun setup p =>
    match alternative.run setup p with
    | .failed (.mismatch e) q =>
      (attemptAfter start (further furthest e) others).run setup
        { q with cursor := start, deepest := p.deepest }
    | outcome => outcome⟩

/-- The first alternative that matches from the cursor. If none does, the cursor is back where it was,
and the error that is furthest into the input is reported. -/
def attempt {α : Type} (first : Parse α) (others : List (Parse α)) : Parse α :=
  ⟨fun setup p =>
    match first.run setup p with
    | .failed (.mismatch e) q =>
      (attemptAfter p.cursor e others).run setup { q with cursor := p.cursor, deepest := p.deepest }
    | outcome => outcome⟩

/-- Runs a rule one level of nesting further down, if there may be one. -/
def nested {α : Type} (rule : Parse α) : Parse α :=
  ⟨fun setup p =>
    if setup.nesting.any (· ≤ p.depth) then (complain .tooDeep).run setup { p with refused := true }
    else match rule.run setup p.deeper with
      | .ok value q => .ok value { q with depth := q.depth - 1 }
      | .failed failure q => .failed failure { q with depth := q.depth - 1 }⟩

/-- The outcome of a rule at the cursor, from the memo if it is there, and stored in it otherwise.
A remembered error leaves the cursor where it is. -/
def remembered (rule : Rule) (body : Parse Node) : Parse Node :=
  ⟨fun setup p =>
    let place : Attempt := ⟨rule, p.cursor⟩
    match if setup.remembers then p.memo.find? place else none with
    | some (.node node stop) => .ok node { p with cursor := stop }
    | some (.error e) => .failed (.mismatch e) p
    | none =>
      match body.run setup p with
      | .ok node q => .ok node { q with memo := q.memo.store place (.node node q.cursor) }
      | .failed (.mismatch e) q =>
        .failed (.mismatch e) { q with memo := q.memo.store place (.error e) }
      | outcome => outcome⟩

/-- A bound on the rounds of a loop that takes a token in each round but the last: the number of tokens
from the cursor on. -/
def rounds : Parse Nat := ⟨fun setup p => .ok (setup.input.before.size - p.cursor + 1) p⟩

@[simp] theorem run_pure {α : Type} (value : α) (setup : Setup) (p : Progress) :
    (pure value : Parse α).run setup p = .ok value p := rfl

@[simp] theorem run_bind {α β : Type} (first : Parse α) (next : α → Parse β) (setup : Setup)
    (p : Progress) :
    (first >>= next).run setup p =
      match first.run setup p with
      | .ok value q => (next value).run setup q
      | .failed failure q => .failed failure q := rfl

@[simp] theorem run_map {α β : Type} (f : α → β) (first : Parse α) (setup : Setup) (p : Progress) :
    (f <$> first).run setup p =
      match first.run setup p with
      | .ok value q => .ok (f value) q
      | .failed failure q => .failed failure q := rfl

@[simp] theorem run_fail {α : Type} (failure : Failure) (setup : Setup) (p : Progress) :
    (fail failure : Parse α).run setup p = .failed failure p := rfl

@[simp] theorem run_check (kinds : List TokenKind) (setup : Setup) (p : Progress) :
    (check kinds).run setup p = .ok (decide ((setup.input.get p.cursor).kind ∈ kinds)) p := rfl

@[simp] theorem run_accept (kinds : List TokenKind) (setup : Setup) (p : Progress) :
    (accept kinds).run setup p =
      if (setup.input.get p.cursor).kind ∈ kinds then
        .ok (some (setup.input.get p.cursor)) (p.pastToken setup.input)
      else .ok none p := by
  by_cases h : (setup.input.get p.cursor).kind ∈ kinds
  · simp [accept, advance, h]
  · simp [accept, h]

@[simp] theorem run_complain {α : Type} (complaint : Complaint) (setup : Setup) (p : Progress) :
    (complain complaint : Parse α).run setup p =
      .failed (.mismatch (.ofToken complaint (setup.input.get p.cursor))) p := rfl

@[simp] theorem run_expectOne (kinds : List TokenKind) (complaint : Complaint) (setup : Setup)
    (p : Progress) :
    (expectOne kinds complaint).run setup p =
      if (setup.input.get p.cursor).kind ∈ kinds then
        .ok (setup.input.get p.cursor) (p.pastToken setup.input)
      else .failed (.mismatch (.ofToken complaint (setup.input.get p.cursor))) p := by
  by_cases h : (setup.input.get p.cursor).kind ∈ kinds <;> simp [expectOne, h]

end Parse

end MagSyntax
