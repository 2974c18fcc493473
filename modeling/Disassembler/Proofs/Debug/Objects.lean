import Disassembler.Debug.Reader
import Disassembler.Json
import Mathlib.Data.List.Nodup

/-!
# What debug files are written from

The objects of a debug file in terms of what they say: a symbol, a function, a line or a type. An
object is a set of members, which come in any order. The reader takes them one after another, and
what it knows in the end is the same in every order, since no two members of an object have one key.
-/

namespace Disassembler.Debug

/-! ## Members -/

/-- A member that means something, with its value. -/
inductive Member where
  | kind (t : Text)
  | name (t : Text)
  | file (t : Text)
  | type (t : Text)
  | data (t : Text)
  | function (t : Text)
  | address (n : UInt64)
  | stop (n : UInt64)
  | line (n : UInt64)
  deriving DecidableEq

namespace Member

/-- The key of a member. -/
def key : Member → String
  | kind _ => "kind"
  | name _ => "name"
  | file _ => "file"
  | type _ => "type"
  | data _ => "data"
  | function _ => "function"
  | address _ => "addr"
  | stop _ => "end"
  | line _ => "line"

/-- The value of a member. Addresses are decimal numbers. -/
def value : Member → Json
  | kind t | name t | file t | type t | data t | function t => .string t
  | address n | stop n | line n => .number n.toNat

/-- A member as it is written, key, colon and value with nothing between them. -/
def written (x : Member) : Text := Json.quote x.key ++ ":" ++ x.value.render

/-- The members that are known, with one more. -/
def addTo (m : Members) : Member → Members
  | kind t => { m with kind := t }
  | name t => { m with name := t }
  | file t => { m with file := t }
  | type t => { m with type := t }
  | data t => { m with data := t }
  | function t => { m with function := t }
  | address n => { m with address := some n }
  | stop n => { m with stop := some n }
  | line n => { m with line := n }

/-- No NUL is in the value. -/
def Clean : Member → Prop
  | kind t | name t | file t | type t | data t | function t => 0 ∉ t
  | address _ | stop _ | line _ => True

theorem key_clean (x : Member) : 0 ∉ Text.ofString x.key ∧ Text.ofString x.key ≠ [] := by
  have hall : ∀ key ∈ ["kind", "name", "file", "type", "data", "function", "addr", "end", "line"],
      0 ∉ Text.ofString key ∧ Text.ofString key ≠ [] := by
    decide
  refine hall x.key ?_
  cases x <;> simp [key]

/-- Members with different keys do not touch each other. -/
theorem addTo_comm {x y : Member} (h : x.key ≠ y.key) (m : Members) :
    addTo (addTo m x) y = addTo (addTo m y) x := by
  cases x <;> cases y <;> first | rfl | exact absurd rfl h

/-- **The order of members does not count**, if no key comes twice. -/
theorem foldl_addTo_perm {xs ys : List Member} (h : xs.Perm ys) (hkeys : (ys.map key).Nodup)
    (m : Members) : xs.foldl addTo m = ys.foldl addTo m := by
  have hdistinct := List.inj_on_of_nodup_map hkeys
  refine h.foldl_eq' (fun x hx y hy m => ?_) m
  by_cases hkey : x.key = y.key
  · obtain rfl := hdistinct (h.mem_iff.mp hx) (h.mem_iff.mp hy) hkey
    rfl
  · exact addTo_comm hkey m

end Member

/-! ## Objects -/

/-- Something that a debug file says. -/
inductive Object where
  | symbol (s : Symbol)
  | function (f : FunctionRange)
  | line (r : Record)
  | type (t : TypeRecord)

namespace Object

/-- The members of an object. -/
def members : Object → List Member
  | symbol s => [.kind "symbol", .address s.address, .name s.name, .type s.kind.name]
  | function f => [.kind "function", .address f.start, .stop f.stop, .name f.name]
  | line r =>
    [.kind "line", .address r.start, .stop r.stop, .line r.line.toUInt64, .file r.file,
      .name r.symbol, .function r.function]
  | type t => [.kind "type", .name t.name, .data t.data]

/-- An object can be written: there is no NUL in it, and its symbol is not an entry point, for which
there is no word. -/
def Writable : Object → Prop
  | symbol s => s.kind ≠ .entry ∧ 0 ∉ s.name
  | function f => 0 ∉ f.name
  | line r => 0 ∉ r.file ∧ 0 ∉ r.symbol ∧ 0 ∉ r.function
  | type t => 0 ∉ t.name ∧ 0 ∉ t.data

instance : (o : Object) → Decidable o.Writable
  | symbol s => inferInstanceAs (Decidable (s.kind ≠ .entry ∧ 0 ∉ s.name))
  | function f => inferInstanceAs (Decidable (0 ∉ f.name))
  | line r => inferInstanceAs (Decidable (0 ∉ r.file ∧ 0 ∉ r.symbol ∧ 0 ∉ r.function))
  | type t => inferInstanceAs (Decidable (0 ∉ t.name ∧ 0 ∉ t.data))

/-- The symbol that an object stands for. A function has one too, under the name as it is. -/
def symbol? : Object → Option Symbol
  | symbol s => some s
  | function f => some { address := f.start, name := f.name, kind := .function }
  | line _ | type _ => none

/-- The function that an object stands for, by the source form of its name. -/
def function? : Object → Option FunctionRange
  | function f => some { f with name := Mangling.demangle f.name }
  | symbol _ | line _ | type _ => none

/-- The line record that an object stands for. -/
def record? : Object → Option Record
  | line r => some r
  | symbol _ | function _ | type _ => none

/-- The type that an object stands for. -/
def type? : Object → Option TypeRecord
  | type t => some t
  | symbol _ | function _ | line _ => none

theorem nodup_keys (o : Object) : (o.members.map Member.key).Nodup := by
  cases o with
  | symbol s => simp [members, Member.key]
  | function f => simp [members, Member.key]
  | line r => simp [members, Member.key]
  | type t => simp [members, Member.key]

theorem Writable.clean {o : Object} (h : o.Writable) : ∀ x ∈ o.members, x.Clean := by
  have hsymbol : ∀ k : SymbolKind, 0 ∉ Text.ofString k.name := by
    intro k
    cases k <;> decide
  have hkind : ∀ w ∈ ["symbol", "function", "line", "type"], 0 ∉ Text.ofString w := by decide
  cases o with
  | symbol s =>
    simp only [members, List.forall_mem_cons]
    exact ⟨hkind "symbol" (by simp), trivial, h.2, hsymbol s.kind, by simp⟩
  | function f =>
    simp only [members, List.forall_mem_cons]
    exact ⟨hkind "function" (by simp), trivial, trivial, h, by simp⟩
  | line r =>
    simp only [members, List.forall_mem_cons]
    exact ⟨hkind "line" (by simp), trivial, trivial, trivial, h.1, h.2.1, h.2.2, by simp⟩
  | type t =>
    simp only [members, List.forall_mem_cons]
    exact ⟨hkind "type" (by simp), h.1, h.2, by simp⟩

end Object

/-- What is known, and what objects say, each kind of thing in order. -/
def Contents.withObjects (c : Contents) (objects : List Object) : Contents :=
  { symbols := c.symbols ++ (objects.filterMap Object.symbol?).toArray
    records :=
      { records := c.records.records ++ (objects.filterMap Object.record?).toArray
        functions := c.records.functions ++ (objects.filterMap Object.function?).toArray
        types := c.records.types ++ (objects.filterMap Object.type?).toArray } }

theorem Contents.withObjects_append (c : Contents) (objects others : List Object) :
    (c.withObjects objects).withObjects others = c.withObjects (objects ++ others) := by
  simp [Contents.withObjects]

/-- **The members of an object say what the object says.** -/
theorem Contents.add_members {o : Object} (h : o.Writable) (c : Contents) :
    c.add (o.members.foldl Member.addTo {}) = .ok (c.withObjects [o]) := by
  cases o with
  | symbol s =>
    obtain ⟨a, name, kind⟩ := s
    cases kind with
    | entry => exact absurd rfl h.1
    | function => rfl
    | object => rfl
    | label => rfl
  | function f => rfl
  | line r =>
    -- the line goes through a wider number
    have hline : r.line.toUInt64.toUInt32 = r.line := UInt32.toUInt32_toUInt64 r.line
    show Except.ok { c with
      records := c.records.addRecord { r with line := r.line.toUInt64.toUInt32 } } = _
    rw [hline]
    rfl
  | type t => rfl

end Disassembler.Debug
