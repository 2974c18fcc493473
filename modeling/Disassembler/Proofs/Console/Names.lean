import Disassembler.Proofs.Console.Position
import Disassembler.Proofs.Console.Words

/-!
# Names that can be typed

The listing shows symbols by the names of their sources, and a name can be said to the console to
find its symbol. Names are compared as a whole, but a line is cut into words before that, so only the
first word of a name is ever looked for. A name is found if it is one word. The name of a function
with several parameters is not, and what is looked for then is its first word.
-/

namespace Disassembler

/-! ## Names of symbols -/

/-- A symbol has a name, as the linker knows it or in its source form. -/
def Symbol.Named (s : Symbol) (name : Text) : Prop := s.name = name ∨ s.display = name

namespace Loaded

variable {l : Loaded} {name : Text}

/-- A text is read as a number, whatever is named: it is `0x` and hexadecimal digits. -/
def IsMarked (t : Text) : Prop := Text.lower (t.take 2) = Text.ofString "0x" ∧ isHex (t.drop 2)

instance (t : Text) : Decidable (IsMarked t) := inferInstanceAs (Decidable (_ ∧ _))

/-- **A symbol is found by each of its names**, or another one that has the name as well. -/
theorem exists_symbol? (h : ∃ s ∈ l.image.symbols, s.Named name) :
    ∃ s ∈ l.image.symbols, s.Named name ∧ l.symbol? name = some s := by
  obtain ⟨t, ht, hname⟩ := h
  have hnamed : (t.name == name || t.display == name) = true := by
    rwa [Bool.or_eq_true, beq_iff_eq, beq_iff_eq]
  have hsome : (l.symbol? name).isSome = true :=
    List.find?_isSome.mpr ⟨t, Array.mem_toList_iff.mpr ht, hnamed⟩
  obtain ⟨s, hs⟩ := Option.isSome_iff_exists.mp hsome
  have hmem := List.mem_of_find?_eq_some hs
  have hfound := List.find?_some hs
  rw [Bool.or_eq_true, beq_iff_eq, beq_iff_eq] at hfound
  exact ⟨s, Array.mem_toList_iff.mp hmem, hfound, hs⟩

/-- A name means the address of the symbol that is found by it. -/
theorem address?_of_symbol? {s : Symbol} (hnul : 0 ∉ name) (hmarked : ¬ IsMarked name)
    (hs : l.symbol? name = some s) : l.address? name = some s.address := by
  rw [address?, Text.untilNul_of_notMem hnul]
  refine (if_neg hmarked).trans ?_
  rw [named?, hs]
  rfl

end Loaded

/-! ## Where a move ends -/

namespace ScrollBuffer

variable {source : RowSource}

theorem cursor_get (b : ScrollBuffer) (i : Nat) : (b.get source i).2.cursor = b.cursor := by
  unfold get
  split
  · rfl
  · rfl

theorem cursor_getAll (is : List Nat) (b : ScrollBuffer) :
    (getAll source is b).2.cursor = b.cursor := by
  induction is generalizing b with
  | nil => rfl
  | cons i is ih => exact (ih _).trans (b.cursor_get i)

end ScrollBuffer

namespace Console

open CommandLine (saying firstWord Typeable)

variable {c : Console} {l : Loaded} {a : UInt64} {args args' : CommandLine} {w : Text}

theorem cursor_moveTo (c : Console) (l : Loaded) (a : UInt64) :
    ((c.moveTo l a).1.bufferOn l).cursor = l.rowAt a := by
  rw [moveTo, bufferOn_withBuffer]
  exact (ScrollBuffer.cursor_getAll _ _).trans (ScrollBuffer.cursor_setAnchor l a _)

/-! ## What is said behind a command -/

/-- Of what is said behind a command only the first word is heard, up to the first NUL. -/
theorem exists_outcome_saying (c : Console) (command : Command) (t : Text) (files : Files)
    (meanwhile : Option (Session.Moment × List Session.Event)) :
    ∃ args, args.first = firstWord t.untilNul
      ∧ c.outcome (.line (saying command t) files meanwhile)
        = c.perform (meanwhile.map interruption) files command args := by
  obtain ⟨hcommand, hfirst⟩ := CommandLine.split_saying command t
  refine ⟨_, hfirst, c.outcome_of_command ?_ files meanwhile⟩
  rw [hcommand, Command.ofName?_name]

theorem performGoto_congr (c : Console) (l : Loaded) (h : args.first = args'.first) :
    c.performGoto l args = c.performGoto l args' := by
  rw [performGoto, performGoto, h]

theorem symbolReply_congr (l : Loaded) (h : args.first = args'.first) :
    symbolReply l args = symbolReply l args' := by
  rw [symbolReply, symbolReply, h]

variable {files : Files} {meanwhile : Option (Session.Moment × List Session.Event)} {t t' : Text}

/-- **Texts with one first word come to the same.** -/
theorem outcome_saying_congr (h : firstWord t.untilNul = firstWord t'.untilNul) :
    c.outcome (.line (saying .goto t) files meanwhile)
        = c.outcome (.line (saying .goto t') files meanwhile)
      ∧ c.outcome (.line (saying .symbol t) files meanwhile)
        = c.outcome (.line (saying .symbol t') files meanwhile) := by
  constructor
  · obtain ⟨args, hargs, hsaid⟩ := c.exists_outcome_saying .goto t files meanwhile
    obtain ⟨args', hargs', hsaid'⟩ := c.exists_outcome_saying .goto t' files meanwhile
    have hfirst : args.first = args'.first := hargs.trans (h.trans hargs'.symm)
    rw [hsaid, hsaid']
    exact congrArg c.onLoaded (funext fun l => performGoto_congr c l hfirst)
  · obtain ⟨args, hargs, hsaid⟩ := c.exists_outcome_saying .symbol t files meanwhile
    obtain ⟨args', hargs', hsaid'⟩ := c.exists_outcome_saying .symbol t' files meanwhile
    have hfirst : args.first = args'.first := hargs.trans (h.trans hargs'.symm)
    rw [hsaid, hsaid']
    exact congrArg c.onLoaded (funext fun l => congrArg (c, ·) (symbolReply_congr l hfirst))

/-! ## What is looked for -/

theorem outcome_goto (hl : c.session.current = some l) :
    ∃ args, args.first = firstWord t.untilNul
      ∧ c.outcome (.line (saying .goto t) files meanwhile)
        = { console := (c.performGoto l args).1, reply := (c.performGoto l args).2 } := by
  obtain ⟨args, hargs, hsaid⟩ := c.exists_outcome_saying .goto t files meanwhile
  exact ⟨args, hargs, hsaid.trans (onLoaded_of_current hl fun l => c.performGoto l args)⟩

theorem outcome_symbol (hl : c.session.current = some l) :
    ∃ args, args.first = firstWord t.untilNul
      ∧ c.outcome (.line (saying .symbol t) files meanwhile)
        = { console := c, reply := symbolReply l args } := by
  obtain ⟨args, hargs, hsaid⟩ := c.exists_outcome_saying .symbol t files meanwhile
  exact ⟨args, hargs, hsaid.trans (onLoaded_of_current hl fun l => (c, symbolReply l args))⟩

/-- **A text that can be typed is looked for as a whole**, so a symbol of that name is found. -/
theorem exists_found (hl : c.session.current = some l) (ht : Typeable t)
    (hnamed : ∃ s ∈ l.image.symbols, s.Named t) (hmarked : ¬ Loaded.IsMarked t) :
    ∃ s ∈ l.image.symbols, s.Named t
      ∧ c.outcome (.line (saying .goto t) files meanwhile)
        = { console := (c.moveTo l s.address).1, reply := (c.moveTo l s.address).2 }
      ∧ c.outcome (.line (saying .symbol t) files meanwhile)
        = { console := c, reply := Reply.ok [
            ("name", .string s.name), ("display", .string s.display),
            ("addr", .address s.address), ("kind", .word s.kind.name),
            ("intrinsic", .bool s.isIntrinsic)] } := by
  have hword : firstWord t.untilNul = some t := CommandLine.firstWord_untilNul_eq_self_iff.mpr ht
  obtain ⟨s, hs, hname, hfound⟩ := Loaded.exists_symbol? hnamed
  have haddress := Loaded.address?_of_symbol? ht.nul_notMem hmarked hfound
  refine ⟨s, hs, hname, ?_, ?_⟩
  · obtain ⟨args, hargs, hgoto⟩ := c.outcome_goto hl
    have hmove : c.performGoto l args = c.moveTo l s.address := by
      rw [hword] at hargs
      simp only [performGoto, hargs, haddress]
    rw [hgoto, hmove]
  · obtain ⟨args, hargs, hsymbol⟩ := c.outcome_symbol hl
    rw [hsymbol, symbolReply, hargs, hword]
    simp only [hfound]

/-- A word that means nothing is refused. -/
theorem outcome_of_unknown (hl : c.session.current = some l) (hw : firstWord t.untilNul = some w) :
    (l.address? w = none → (c.outcome (.line (saying .goto t) files meanwhile)).reply
        = some (Reply.error ("bad address: " ++ w) []))
      ∧ (l.symbol? w = none → (c.outcome (.line (saying .symbol t) files meanwhile)).reply
        = some (Reply.error ("unknown symbol: " ++ w) [])) := by
  constructor
  · intro hnone
    obtain ⟨args, hargs, hgoto⟩ := c.outcome_goto hl
    rw [hw] at hargs
    rw [hgoto]
    simp only [performGoto, hargs, hnone]
  · intro hnone
    obtain ⟨args, hargs, hsymbol⟩ := c.outcome_symbol hl
    rw [hsymbol, symbolReply, hargs, hw]
    simp only [hnone]

/--
**A name is found if it can be typed.**

Take a symbol of what is loaded in a console, and the name that the listing shows for it. The name is
not `0x` with hexadecimal digits, which is a number. If it is one word of at most 255 bytes without a
NUL, then `goto` with the name moves to the address of a symbol which has that name, and `symbol`
reports that symbol. Otherwise something else is looked for: both do what they do for the first word
of the name, which is not the name, and refuse it if it means nothing; and a name without a word is
refused.
-/
theorem name_found_if_typeable (c : Console) {l : Loaded} (hl : c.session.current = some l)
    {s : Symbol} (hs : s ∈ l.image.symbols) (hmarked : ¬ Loaded.IsMarked s.display) (files : Files)
    (meanwhile : Option (Session.Moment × List Session.Event)) :
    let goto := fun name => c.outcome (.line (saying .goto name) files meanwhile)
    let symbol := fun name => c.outcome (.line (saying .symbol name) files meanwhile)
    (Typeable s.display → ∃ found ∈ l.image.symbols, found.Named s.display
        ∧ ((goto s.display).console.bufferOn l).cursor = l.rowAt found.address
        ∧ (goto s.display).reply = some (c.moveTo l found.address).2
        ∧ (symbol s.display).reply = some (Reply.ok [
          ("name", .string found.name), ("display", .string found.display),
          ("addr", .address found.address), ("kind", .word found.kind.name),
          ("intrinsic", .bool found.isIntrinsic)]))
      ∧ (¬ Typeable s.display → ∀ w, firstWord s.display.untilNul = some w →
        w ≠ s.display ∧ Typeable w ∧ goto s.display = goto w ∧ symbol s.display = symbol w
          ∧ (l.address? w = none →
            (goto s.display).reply = some (Reply.error ("bad address: " ++ w) []))
          ∧ (l.symbol? w = none →
            (symbol s.display).reply = some (Reply.error ("unknown symbol: " ++ w) [])))
      ∧ (firstWord s.display.untilNul = none →
        Refused (goto s.display).reply ∧ Refused (symbol s.display).reply) := by
  intro goto symbol
  refine ⟨fun htypeable => ?_, fun hnot w hw => ?_, fun hnone => ?_⟩
  · obtain ⟨found, hfound, hnamed, hgoto, hsymbol⟩ :=
      exists_found hl htypeable ⟨s, hs, Or.inr rfl⟩ hmarked
    refine ⟨found, hfound, hnamed, ?_, congrArg Outcome.reply hgoto,
      congrArg Outcome.reply hsymbol⟩
    rw [show goto s.display = _ from hgoto]
    exact cursor_moveTo c l found.address
  · have hword := CommandLine.typeable_of_firstWord hw
    have hsame : firstWord s.display.untilNul = firstWord w.untilNul :=
      hw.trans (CommandLine.firstWord_untilNul_eq_self_iff.mpr hword).symm
    obtain ⟨hgoto, hsymbol⟩ := outcome_saying_congr hsame
    obtain ⟨hbad, hunknown⟩ := outcome_of_unknown hl hw
    exact ⟨fun heq => hnot (heq ▸ hword), hword, hgoto, hsymbol, hbad, hunknown⟩
  · constructor
    · obtain ⟨args, hargs, hgoto⟩ := c.outcome_goto hl
      rw [show goto s.display = _ from hgoto, performGoto, hargs, hnone]
      rfl
    · obtain ⟨args, hargs, hsymbol⟩ := c.outcome_symbol hl
      rw [show symbol s.display = _ from hsymbol, symbolReply, hargs, hnone]
      rfl

/-- A function that returns at once, with a name. -/
def namedImage (name : String) : Image :=
  Image.build (some .x86_64) .little 0x1000
    [{ name := Text.ofString ".text", start := 0x1000, size := 1
       permissions := { read := true, execute := true }, bytes := #[0xc3] }]
    [{ address := 0x1000, name := Text.ofString name, kind := .function }]

/-- A function with one parameter is found by the name that is shown for it. -/
theorem name_found_if_typeable_one_parameter :
    ∃ b, Loaded.build {} {} (namedImage "_Z1fi") { image := some (namedImage "_Z1fi") } [] = .ok b
      ∧ let l := { b with generation := 1 }
        let c := ({} : Console).afterAll (loading b)
        let line : Text → Event := fun text => .line text (fun _ => .missing "") none
        c.session.current = some l ∧ l.rowAt 0x1000 = 1
          ∧ ∃ s ∈ l.image.symbols, s.display = Text.ofString "f(int)"
            ∧ ¬ Loaded.IsMarked s.display
            ∧ ((c.outcome (line "goto f(int)")).console.bufferOn l).cursor = 1
            ∧ (c.outcome (line "symbol f(int)")).reply = some (Reply.ok [
              ("name", .string "_Z1fi"), ("display", .string "f(int)"), ("addr", .address 0x1000),
              ("kind", .word "function"), ("intrinsic", .bool false)]) := by
  let s : Symbol := { address := 0x1000, name := Text.ofString "_Z1fi", kind := .function }
  obtain ⟨b, hb, hfacts⟩ : ∃ b,
      Loaded.build {} {} (namedImage "_Z1fi") { image := some (namedImage "_Z1fi") } [] = .ok b
        ∧ ((b.image.symbols, b.rowAt 0x1000) == (#[s], 1)) = true :=
    exists_ok_of_any (by decide +kernel)
  obtain ⟨hsymbols, hrow⟩ : b.image.symbols = #[s] ∧ b.rowAt 0x1000 = 1 := by
    simpa only [beq_iff_eq, Prod.mk.injEq] using hfacts
  let l : Loaded := { b with generation := 1 }
  have hs : s ∈ l.image.symbols := by
    show s ∈ b.image.symbols
    rw [hsymbols]
    exact Array.mem_singleton.mpr rfl
  have hdisplay : s.display = Text.ofString "f(int)" := by decide +kernel
  have hmarked : ¬ Loaded.IsMarked s.display := by
    rw [hdisplay]
    decide
  have htypeable : Typeable s.display := by
    rw [hdisplay]
    exact ⟨by decide, by decide⟩
  obtain ⟨hfound, -⟩ := name_found_if_typeable (({} : Console).afterAll (loading b))
    (current_loading b) hs hmarked (fun _ => .missing "") none
  obtain ⟨found, hmem, -, hcursor, -, hreply⟩ := hfound htypeable
  have heq : found = s := by
    have hmem : found ∈ b.image.symbols := hmem
    rw [hsymbols] at hmem
    exact Array.mem_singleton.mp hmem
  rw [heq, hdisplay] at hcursor hreply
  refine ⟨b, hb, current_loading b, hrow, s, hs, hdisplay, hmarked, hcursor.trans ?_, hreply⟩
  exact congrArg Nat.cast hrow

/-- **A function with two parameters is not found by the name that is shown for it**: it is cut
between them. -/
theorem name_of_two_parameters_not_found :
    ∃ b, Loaded.build {} {} (namedImage "_Z1fil") { image := some (namedImage "_Z1fil") } [] = .ok b
      ∧ let l := { b with generation := 1 }
        let c := ({} : Console).afterAll (loading b)
        let line : Text → Event := fun text => .line text (fun _ => .missing "") none
        c.session.current = some l
          ∧ (∃ s ∈ l.image.symbols, s.display = Text.ofString "f(int, long)"
            ∧ Text.newline ∉ s.display ∧ ¬ Loaded.IsMarked s.display)
          ∧ (c.outcome (line "goto f(int, long)")).reply
            = some (Reply.error "bad address: f(int," [])
          ∧ (c.outcome (line "symbol f(int, long)")).reply
            = some (Reply.error "unknown symbol: f(int," []) := by
  let s : Symbol := { address := 0x1000, name := Text.ofString "_Z1fil", kind := .function }
  obtain ⟨b, hb, hfacts⟩ : ∃ b,
      Loaded.build {} {} (namedImage "_Z1fil") { image := some (namedImage "_Z1fil") } [] = .ok b
        ∧ ((b.image.symbols, b.address? "f(int,", b.symbol? "f(int,") == (#[s], none, none))
          = true :=
    exists_ok_of_any (by decide +kernel)
  obtain ⟨hsymbols, haddress, hsymbol⟩ : b.image.symbols = #[s]
      ∧ b.address? "f(int," = none ∧ b.symbol? "f(int," = none := by
    simpa only [beq_iff_eq, Prod.mk.injEq] using hfacts
  have hdisplay : s.display = Text.ofString "f(int, long)" := by decide +kernel
  have hword : firstWord (Text.untilNul "f(int, long)") = some (Text.ofString "f(int,") := by decide
  obtain ⟨hbad, hunknown⟩ := outcome_of_unknown (current_loading b) hword
  refine ⟨b, hb, current_loading b, ⟨s, ?_, hdisplay, ?_, ?_⟩, hbad haddress, hunknown hsymbol⟩
  · show s ∈ b.image.symbols
    rw [hsymbols]
    exact Array.mem_singleton.mpr rfl
  · rw [hdisplay]
    decide
  · rw [hdisplay]
    decide

end Console

end Disassembler
