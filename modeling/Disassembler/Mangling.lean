import Disassembler.Text

/-!
# Mangled names

Linkers know a C++ function by one word that spells its qualified name and the types of its
parameters. `demangle` gives such a name its source form, and leaves every other name as it is.
Read are plain and qualified names, constructors and destructors, constant member functions, and
parameters built from arithmetic types by pointers, references and `const`.
-/

namespace Disassembler.Mangling

/-- A name as it is mangled. -/
structure Mangled where
  /-- The qualified name, outermost part first. -/
  path : List Text
  /-- Is it a member function that leaves its object unchanged? -/
  isConst : Bool := false
  /-- The types of the parameters; nothing when the name is of no function. -/
  parameters : Option (List Text) := none

/-! ## Types -/

/-- The arithmetic types, each known by a letter. -/
def builtinTypes : List (Char × String) := [
  ('v', "void"), ('b', "bool"), ('c', "char"), ('a', "signed char"), ('h', "unsigned char"),
  ('s', "short"), ('t', "unsigned short"), ('i', "int"), ('j', "unsigned int"), ('l', "long"),
  ('m', "unsigned long"), ('x', "long long"), ('y', "unsigned long long"), ('w', "wchar_t"),
  ('f', "float"), ('d', "double"), ('e', "long double"), ('z', "...")]

/-- What a letter adds behind the type that follows it. -/
def typeModifiers : List (Char × String) := [('P', "*"), ('R', "&"), ('O', "&&"), ('K', " const")]

/-- The word of a letter in a table. -/
def wordOf? (table : List (Char × String)) (b : UInt8) : Option Text :=
  (table.find? fun e => Text.code e.1 == b).map fun e => Text.ofString e.2

/-- The types that a text spells to its end; `behind` is what the letters read so far add behind
the next type. -/
def types? (behind : Text) : Text → Option (List Text)
  | [] => if behind.isEmpty then some [] else none
  | b :: rest =>
    match wordOf? typeModifiers b with
    | some m => types? (m ++ behind) rest
    | none => do
      let name ← wordOf? builtinTypes b
      return (name ++ behind) :: (← types? [] rest)

/-- The parameters that a text spells: a single `void` is none at all. -/
def parameters? (t : Text) : Option (List Text) := do
  let types ← types? [] t
  return if types = [Text.ofString "void"] then [] else types

/-! ## Names -/

/-- A name behind its length, with the text that follows. -/
def sourceName? (t : Text) : Option (Text × Text) :=
  let n := Text.numeral 10 (t.takeWhile (Text.isDigit 10))
  let rest := t.dropWhile (Text.isDigit 10)
  if 0 < n ∧ n ≤ rest.length then some (rest.take n, rest.drop n) else none

/-- A constructor or destructor of the class named last, with the text that follows. -/
def specialName? (last : Option Text) (t : Text) : Option (Text × Text) :=
  match last, t with
  | some name, kind :: variety :: rest =>
    if kind = Text.code 'C' ∧ Text.code '1' ≤ variety ∧ variety ≤ Text.code '3' then
      some (name, rest)
    else if kind = Text.code 'D' ∧ Text.code '0' ≤ variety ∧ variety ≤ Text.code '2' then
      some ("~" ++ name, rest)
    else none
  | _, _ => none

/-- The parts of a qualified name up to its closing letter, with the text that follows. -/
def qualified? (path : List Text) (t : Text) : Option (List Text × Text) :=
  if t.head? = some (Text.code 'E') then
    if path.isEmpty then none else some (path, t.tail)
  else
    match (sourceName? t).or (specialName? path.getLast? t) with
    | some (part, rest) =>
      if _h : rest.length < t.length then qualified? (path ++ [part]) rest else none
    | none => none
termination_by t.length

/-- The name at the front of a text, and what follows: a qualified name between letters, or a
plain name. -/
def name? : Text → Option (Mangled × Text)
  | b :: rest =>
    if b = Text.code 'N' then do
      let isConst := rest.head? = some (Text.code 'K')
      let (path, after) ← qualified? [] (if isConst then rest.tail else rest)
      return ({ path, isConst }, after)
    else do
      let (name, after) ← sourceName? (b :: rest)
      return ({ path := [name] }, after)
  | [] => none

/-- A mangled name, which begins with an underscore and a capital letter. -/
def read? (t : Text) : Option Mangled := do
  let body ← match t with
    | u :: z :: rest => if u = Text.code '_' ∧ z = Text.code 'Z' then some rest else none
    | _ => none
  let (name, types) ← name? body
  if types.isEmpty then return name
  else return { name with parameters := some (← parameters? types) }

/-- The source form of a mangled name. -/
def Mangled.text (m : Mangled) : Text :=
  (Text.ofString "::").intercalate m.path
    ++ (match m.parameters with
      | some ps => "(" ++ (Text.ofString ", ").intercalate ps ++ ")"
      | none => [])
    ++ (if m.isConst then Text.ofString " const" else [])

/-- The source form of a name, up to its first NUL; the name itself if it is not mangled. -/
def demangle (name : Text) : Text :=
  match read? name.untilNul with
  | some m => m.text
  | none => name

end Disassembler.Mangling
