import Mathlib

/-!
# Documents

What a writer is told to build: keyed values at the root and in blocks, values in
arrays. `Builder` is the purpose of the construction calls of `bc_hrbl_writer.h`
without any memory behind it: a stack of open scopes over the members of the root.
-/

namespace Hrbl

abbrev Bytes := List UInt8

/-- A value without children. A `double` is the word of its bits. -/
inductive Scalar where
  | null
  | bool (value : Bool)
  | int64 (value : Int64)
  | uint64 (value : UInt64)
  | float64 (bits : UInt64)
  | string (value : Bytes)
deriving Repr, DecidableEq

/-- A value of the document tree. -/
inductive Value where
  | scalar (scalar : Scalar)
  | block (members : List (Bytes × Value))
  | array (elements : List Value)
deriving Repr

/-- The members of the root, in the order of the calls. -/
abbrev Document := List (Bytes × Value)

/-! ## Calls -/

/-- The `key, key_length` arguments of a call: a null pointer with a length, or a
pointer to that many bytes. -/
inductive KeyArg where
  | null (length : UInt64)
  | data (bytes : Bytes)
deriving Repr, DecidableEq

/-- A construction call of the public header with its arguments. -/
inductive Op where
  | setNull (key : KeyArg)
  | setBool (key : KeyArg) (value : Bool)
  | setInt64 (key : KeyArg) (value : Int64)
  | setUint64 (key : KeyArg) (value : UInt64)
  | setFloat64 (key : KeyArg) (bits : UInt64)
  | setString (key : KeyArg) (value : Bytes)
  | beginBlock (key : KeyArg)
  | endBlock
  | beginArray (key : KeyArg)
  | endArray
  | appendNull
  | appendBool (value : Bool)
  | appendInt64 (value : Int64)
  | appendUint64 (value : UInt64)
  | appendFloat64 (bits : UInt64)
  | appendString (value : Bytes)
deriving Repr, DecidableEq

/-! ## The builder -/

/-- `UINT32_MAX`, the bound on the length of keys and strings. -/
abbrev lengthMax : Nat := 0xFFFFFFFF

/-- The two kinds of scopes. -/
inductive ScopeKind where
  | block
  | array
deriving Repr, DecidableEq

/-- An open scope: the key it was opened with, and what it holds so far. An element
of an array goes under the empty key. -/
structure Scope where
  kind : ScopeKind
  key : Bytes
  members : List (Bytes × Value)
deriving Repr

/-- The value of a scope that is closed. -/
def Scope.value (scope : Scope) : Value :=
  match scope.kind with
  | .block => .block scope.members
  | .array => .array (scope.members.map Prod.snd)

/-- The members of the root, and the open scopes, innermost first. -/
structure Builder where
  members : List (Bytes × Value)
  scopes : List Scope
deriving Repr

namespace Builder

def empty : Builder := { members := [], scopes := [] }

/-- A member put at the end of the current scope. -/
def add (b : Builder) (key : Bytes) (value : Value) : Builder :=
  match b.scopes with
  | [] => { b with members := b.members ++ [(key, value)] }
  | scope :: outer =>
    { b with scopes := { scope with members := scope.members ++ [(key, value)] } :: outer }

/-- The key that an argument pair stands for. -/
def keyOf : KeyArg → Option Bytes
  | .null length => if length = 0 then some [] else none
  | .data bytes => if bytes.length ≤ lengthMax then some bytes else none

/-- Members of the root and of a block have keys. -/
def keyed (b : Builder) : Bool :=
  match b.scopes with
  | [] => true
  | scope :: _ => scope.kind = .block

/-- The scalars a writer takes: strings are bounded in length. -/
def admits : Scalar → Bool
  | .string value => value.length ≤ lengthMax
  | _ => true

/-- A scalar under a key. -/
def set (b : Builder) (key : KeyArg) (s : Scalar) : Option Builder :=
  if admits s ∧ b.keyed then (keyOf key).map fun k => b.add k (.scalar s) else none

/-- A scalar at the end of an array. -/
def append (b : Builder) (s : Scalar) : Option Builder :=
  if admits s ∧ !b.keyed then some (b.add [] (.scalar s)) else none

/-- A new innermost scope; in an array only without a key. -/
def openScope (b : Builder) (kind : ScopeKind) (key : KeyArg) : Option Builder :=
  if b.keyed then
    (keyOf key).map fun k => { b with scopes := { kind, key := k, members := [] } :: b.scopes }
  else if key = .null 0 then
    some { b with scopes := { kind, key := [], members := [] } :: b.scopes }
  else none

/-- The innermost scope becomes a member of the one around it. -/
def close (b : Builder) (kind : ScopeKind) : Option Builder :=
  match b.scopes with
  | [] => none
  | scope :: outer =>
    if scope.kind = kind then some ({ b with scopes := outer }.add scope.key scope.value)
    else none

/-- In an array nothing has a key, neither a member nor a scope opened there. -/
def KeylessScopes : List Scope → Prop
  | [] => True
  | scope :: outer => (scope.kind = .array → ∀ m ∈ scope.members, m.1 = []) ∧
      (∀ around ∈ outer.head?, around.kind = .array → scope.key = []) ∧ KeylessScopes outer

/-- One call; `none` when the builder does not allow it. -/
def step (b : Builder) : Op → Option Builder
  | .setNull key => b.set key .null
  | .setBool key value => b.set key (.bool value)
  | .setInt64 key value => b.set key (.int64 value)
  | .setUint64 key value => b.set key (.uint64 value)
  | .setFloat64 key bits => b.set key (.float64 bits)
  | .setString key value => b.set key (.string value)
  | .beginBlock key => b.openScope .block key
  | .endBlock => b.close .block
  | .beginArray key => b.openScope .array key
  | .endArray => b.close .array
  | .appendNull => b.append .null
  | .appendBool value => b.append (.bool value)
  | .appendInt64 value => b.append (.int64 value)
  | .appendUint64 value => b.append (.uint64 value)
  | .appendFloat64 bits => b.append (.float64 bits)
  | .appendString value => b.append (.string value)

/-- A run of calls. -/
def run (b : Builder) : List Op → Option Builder
  | [] => some b
  | op :: ops => (b.step op).bind fun b' => b'.run ops

theorem run_append (b : Builder) (ops ops' : List Op) :
    b.run (ops ++ ops') = (b.run ops).bind fun b' => b'.run ops' := by
  induction ops generalizing b with
  | nil => rfl
  | cons op ops ih =>
    simp only [List.cons_append, run]
    cases b.step op with
    | none => rfl
    | some b' => exact ih b'

end Builder

end Hrbl
