import Disassembler.Console
import Disassembler.Proofs.Console.Words
import Disassembler.Proofs.Json

/-!
# Every command gets one reply

Whatever is loaded, and whatever the bytes of its names, a line with a command is answered by one
line: a JSON object that says first whether the command was carried out. All replies are made by
`Reply.ok` and `Reply.error`, so what is left to see is that each way through each command ends in
one of them.
-/

namespace Disassembler

namespace Reply

/-- A reply says first whether the command was carried out. -/
def IsReply (x : Json) : Prop := ∃ done members, x = .object (("ok", .bool done) :: members)

theorem isReply_ok (members : List (String × Json)) : IsReply (ok members) := ⟨true, members, rfl⟩

theorem isReply_error (message : Text) (members : List (String × Json)) :
    IsReply (error message members) := ⟨false, _, rfl⟩

theorem isReply_rows (rs : List Row) : IsReply (rows rs) := isReply_ok _

end Reply

namespace Console

open Reply

variable {ρ : Type}

/-! ## Commands -/

theorem isReply_symbolReply (l : Loaded) (args : CommandLine) : IsReply (symbolReply l args) := by
  unfold symbolReply
  split
  · exact isReply_error _ _
  split
  · exact isReply_ok _
  · exact isReply_error _ _

theorem isReply_resolveReply (l : Loaded) (a : UInt64) : IsReply (resolveReply l a) := by
  unfold resolveReply
  split
  · exact isReply_ok _
  · exact isReply_error _ _

theorem isReply_aboutAddress {reply : UInt64 → Json} (h : ∀ a, IsReply (reply a)) (c : Command)
    (l : Loaded) (args : CommandLine) : IsReply (aboutAddress c l args reply) := by
  unfold aboutAddress
  split
  · exact isReply_error _ _
  split
  · exact h _
  · exact isReply_error _ _

theorem isReply_moveTo (c : Console) (l : Loaded) (a : UInt64) : IsReply (c.moveTo l a).2 := by
  unfold moveTo
  dsimp only
  split
  · exact isReply_ok _
  · exact isReply_error _ _

theorem isReply_performGoto (c : Console) (l : Loaded) (args : CommandLine) :
    IsReply (c.performGoto l args).2 := by
  unfold performGoto
  split
  · exact isReply_error _ _
  split
  · exact isReply_moveTo c l _
  · exact isReply_error _ _

theorem exists_reply_onLoaded {c : Console} {f : Loaded → Console × Json}
    (h : ∀ l, IsReply (f l).2) :
    ∃ x, (c.onLoaded f : Outcome ρ).reply = some x ∧ IsReply x := by
  unfold onLoaded
  split
  · exact ⟨_, rfl, h _⟩
  · exact ⟨_, rfl, isReply_error _ _⟩

theorem exists_reply_performLoad (c : Console) (i : Option (Session.Interruption ρ))
    (files : Files) (args : CommandLine) :
    ∃ x, (c.performLoad i files args).reply = some x ∧ IsReply x := by
  unfold performLoad
  split
  · exact ⟨_, rfl, isReply_error _ _⟩
  split
  · exact ⟨_, rfl, isReply_error _ _⟩
  dsimp only
  split
  · exact ⟨_, rfl, isReply_error _ _⟩
  · exact ⟨_, rfl, isReply_ok _⟩
  · exact ⟨_, rfl, isReply_ok _⟩

/-- **Every command has a reply**, on each way through it. -/
theorem exists_reply_perform (c : Console) (i : Option (Session.Interruption ρ)) (files : Files)
    (command : Command) (args : CommandLine) :
    ∃ x, (c.perform i files command args).reply = some x ∧ IsReply x := by
  cases command with
  | load => exact exists_reply_performLoad c i files args
  | info => exact exists_reply_onLoaded fun l => isReply_ok _
  | goto => exact exists_reply_onLoaded fun l => isReply_performGoto c l args
  | list => exact exists_reply_onLoaded fun l => isReply_rows _
  | back => exact exists_reply_onLoaded fun l => isReply_rows _
  | lookup =>
    exact exists_reply_onLoaded fun l => isReply_aboutAddress (fun a => isReply_ok _) _ l args
  | symbol => exact exists_reply_onLoaded fun l => isReply_symbolReply l args
  | resolve =>
    exact exists_reply_onLoaded fun l => isReply_aboutAddress (isReply_resolveReply l) _ l args
  | hex =>
    exact exists_reply_onLoaded fun l => isReply_aboutAddress (fun a => isReply_rows _) _ l args
  | seeds => exact exists_reply_onLoaded fun l => isReply_ok _
  | help => exact ⟨_, rfl, isReply_ok _⟩
  | quit => exact ⟨_, rfl, isReply_ok _⟩

/-! ## Lines -/

/-- A reply is one line, for a newline is a control character. -/
theorem newline_notMem_render (x : Json) : Text.newline ∉ x.render := fun hmem => by
  have hprintable := Json.printable_render _ _ hmem
  exact absurd hprintable (by decide)

/-- A line is empty if nothing counts that stands before its first NUL. -/
theorem trim_eq_nil_iff {line : Text} :
    CommandLine.trim line = [] ↔ ∀ b ∈ line.untilNul, CommandLine.isTrailing b = true := by
  rw [CommandLine.trim, List.reverse_eq_nil_iff, List.dropWhile_eq_nil_iff]
  exact forall_congr' fun b => imp_congr_left List.mem_reverse

/-- A line without a NUL is empty only if nothing in it counts. -/
theorem trim_ne_nil {line : Text} (hnul : 0 ∉ line)
    (hline : ∃ b ∈ line, CommandLine.isTrailing b = false) : CommandLine.trim line ≠ [] := by
  obtain ⟨b, hb, hcounts⟩ := hline
  intro hnil
  have hskipped := trim_eq_nil_iff.mp hnil b ((Text.untilNul_of_notMem hnul).symm ▸ hb)
  exact Bool.false_ne_true (hcounts.symm.trans hskipped)

theorem exists_reply_process (c : Console) (i : Option (Session.Interruption ρ)) (files : Files)
    {line : Text} (h : CommandLine.trim line ≠ []) :
    ∃ x, (c.process i files line).reply = some x ∧ IsReply x := by
  have hline : (CommandLine.trim line).isEmpty = false := by simpa using h
  unfold process
  dsimp only
  rw [hline, if_neg Bool.false_ne_true]
  split
  · exact exists_reply_perform c i files _ _
  · exact ⟨_, rfl, isReply_error _ _⟩

end Console

end Disassembler
