import Disassembler.Program
import Disassembler.Proofs.Console.Replies
import Disassembler.Proofs.Console.Traces

/-!
# The program answers line for line

The program reads its standard input in pieces: a line with its line end, or as many bytes of it as
fit. To each piece in which something is said there is one line of output, until one of them quits.
So a line is answered by one line if it fits. What does not fit of a line is taken for a line of its
own.
-/

namespace Disassembler

namespace CommandLine

/-- Something is said in a line: anything but spaces and line ends stands before its first NUL. -/
def Speaks (line : Text) : Prop :=
  ∃ b ∈ line.untilNul, b ≠ Text.code ' ' ∧ b ≠ Text.code '\r' ∧ b ≠ Text.newline

instance (line : Text) : Decidable (Speaks line) := List.decidableBEx _ _

/-- The first word of a line is the command to quit. -/
def Quits (line : Text) : Prop := (split (trim line)).command = Text.ofString "quit"

instance (line : Text) : Decidable (Quits line) := inferInstanceAs (Decidable (_ = _))

/-- The lines that are heard: of those up to the first one that quits, the ones in which something
is said. -/
def heard (lines : List Text) : List Text :=
  (lines.take (lines.findIdx (Quits ·) + 1)).filter (Speaks ·)

variable {l : Text} {lines : List Text}

theorem trim_ne_nil_iff : trim l ≠ [] ↔ Speaks l := by
  rw [ne_eq, Console.trim_eq_nil_iff, Speaks]
  simp only [isTrailing, Bool.or_eq_true, beq_iff_eq, not_forall, not_or]
  constructor
  · rintro ⟨b, hb, ⟨hnewline, hreturn⟩, hspace⟩
    exact ⟨b, hb, hspace, hreturn, hnewline⟩
  · rintro ⟨b, hb, hspace, hreturn, hnewline⟩
    exact ⟨b, hb, ⟨hnewline, hreturn⟩, hspace⟩

/-- Only a line in which something is said can quit. -/
theorem Quits.speaks (h : Quits l) : Speaks l := by
  refine trim_ne_nil_iff.mp fun hnil => ?_
  rw [Quits, hnil] at h
  exact absurd h (by decide)

theorem heard_cons_of_silent (h : ¬ Speaks l) : heard (l :: lines) = heard lines := by
  have hquits : ¬ Quits l := fun hq => h hq.speaks
  simp [heard, List.findIdx_cons, h, hquits]

theorem heard_cons_of_quits (h : Quits l) : heard (l :: lines) = [l] := by
  simp [heard, List.findIdx_cons, h, h.speaks]

theorem heard_cons (hspeaks : Speaks l) (hquits : ¬ Quits l) :
    heard (l :: lines) = l :: heard lines := by
  simp [heard, List.findIdx_cons, hspeaks, hquits]

/-- A line end at the end of a line does not count. -/
theorem trim_append_newline (l : Text) : trim (l ++ [Text.newline]) = trim l := by
  rw [trim, trim, Text.untilNul, List.takeWhile_append]
  split
  · rename_i hall
    have hself := (List.takeWhile_prefix (· != 0)).eq_of_length hall
    rw [Text.untilNul, hself, List.reverse_append]
    rfl
  · rfl

end CommandLine

theorem Command.ofName?_eq_quit_iff {t : Text} :
    ofName? t = some quit ↔ t = Text.ofString "quit" := by
  constructor
  · intro h
    have hname := List.find?_some h
    exact (beq_iff_eq.mp hname).symm
  · rintro rfl
    decide

namespace Console

open CommandLine

variable {c : Console} {files : Files} {l : Text} {lines : List Text}

/-! ## One line -/

/-- Every command but one leaves the console running. -/
theorem running_perform (c : Console) (i : Option (Session.Interruption Unit)) (files : Files)
    {command : Command} (args : CommandLine) (h : command ≠ .quit) :
    (c.perform i files command args).console.running = c.running := by
  cases command with
  | quit => exact absurd rfl h
  | help => rfl
  | load =>
    show (c.performLoad i files args).console.running = _
    unfold performLoad
    split
    · rfl
    · split <;> rfl
  | goto =>
    refine onLoaded_of_forall (P := fun c' => c'.running = c.running) rfl fun l => ?_
    show (c.performGoto l args).1.running = _
    unfold performGoto
    split
    · rfl
    · split <;> rfl
  | info | list | back | lookup | symbol | resolve | hex | seeds =>
    exact onLoaded_of_forall (P := fun c' => c'.running = c.running) rfl fun l => rfl

theorem running_turn (c : Console) (files : Files) (l : Text) :
    (c.turn { line := l, files }).console.running = true ↔ c.running = true ∧ ¬ Quits l := by
  unfold turn process
  dsimp only
  split
  · rename_i hnil
    have hspeaks : ¬ Speaks l := fun h => trim_ne_nil_iff.mpr h (List.isEmpty_iff.mp hnil)
    exact (and_iff_left fun h => hspeaks h.speaks).symm
  split
  · rename_i command hcommand
    have hquits : Quits l ↔ command = .quit := by
      rw [Quits, ← Command.ofName?_eq_quit_iff, hcommand, Option.some.injEq]
    by_cases h : command = .quit
    · subst h
      simp [hquits, perform]
    · rw [running_perform c _ files _ h, hquits]
      exact (and_iff_left h).symm
  · rename_i hcommand
    refine (and_iff_left fun h => ?_).symm
    rw [Command.ofName?_eq_quit_iff.mpr h] at hcommand
    exact absurd hcommand (by simp)

/-- A line in which nothing is said is passed over. -/
theorem turn_of_silent (c : Console) (files : Files) (h : ¬ Speaks l) :
    c.turn { line := l, files } = { console := c, reply := none } := by
  have hnil : CommandLine.trim l = [] := not_not.mp fun hne => h (trim_ne_nil_iff.mp hne)
  rw [turn, process, hnil]
  rfl

theorem turn_append_newline (c : Console) (files : Files) (l : Text) :
    c.turn { line := l ++ [Text.newline], files } = c.turn { line := l, files } := by
  rw [turn, process, trim_append_newline, turn, process]

/-- The reply to a line in which something is said. -/
theorem exists_reply_turn (c : Console) (files : Files) (h : Speaks l) :
    ∃ x, (c.turn { line := l, files }).reply = some x ∧ Reply.IsReply x
      ∧ Text.newline ∉ x.render := by
  obtain ⟨x, hreply, hx⟩ := exists_reply_process c none files (trim_ne_nil_iff.mpr h)
  exact ⟨x, hreply, hx, newline_notMem_render x⟩

/-! ## Many lines -/

/-- The console after lines that were read one after the other. -/
def after (files : Files) (c : Console) (lines : List Text) : Console :=
  lines.foldl (fun c l => (c.turn { line := l, files }).console) c

/-- The output answers line for line: in the order of the lines that are heard there is one line for
each, the reply of the console that the lines before it leave. -/
def LineForLine (files : Files) (c : Console) (lines : List Text) (output : Text) : Prop :=
  ∃ replies : List Json, output = replies.flatMap (fun x => written (some x))
    ∧ replies.length = (heard lines).length
    ∧ ∀ k l x, (heard lines)[k]? = some l → replies[k]? = some x →
      ((c.after files ((heard lines).take k)).turn { line := l, files }).reply = some x
        ∧ Reply.IsReply x ∧ Text.newline ∉ x.render

/-- There are as many lines of output as there are lines that are heard. -/
theorem LineForLine.count_newline {output : Text} (h : LineForLine files c lines output) :
    output.count Text.newline = (heard lines).length := by
  obtain ⟨replies, rfl, hlength, hreplies⟩ := h
  have hone : ∀ x ∈ replies, (written (some x)).count Text.newline = 1 := fun x hx => by
    obtain ⟨k, hk⟩ := List.mem_iff_getElem?.mp hx
    obtain ⟨l, hl⟩ : ∃ l, (heard lines)[k]? = some l := by
      have hlt := (List.getElem?_eq_some_iff.mp hk).1
      exact ⟨_, List.getElem?_eq_getElem (hlength ▸ hlt)⟩
    have hnewline := (hreplies k l x hl hk).2.2
    rw [written, List.count_append, List.count_eq_zero_of_not_mem hnewline]
    rfl
  rw [← hlength, List.count_flatMap, Function.comp_def, List.map_congr_left hone]
  simp

theorem lineForLine_nil (files : Files) (c : Console) : LineForLine files c [] [] :=
  ⟨[], rfl, rfl, fun k l x h => absurd h (by simp [heard])⟩

/-- A line that quits is the last one to be answered. -/
theorem lineForLine_of_quits (c : Console) (files : Files) (h : Quits l) :
    LineForLine files c (l :: lines) (written (c.turn { line := l, files }).reply) := by
  obtain ⟨x, hreply, hx⟩ := exists_reply_turn c files h.speaks
  rw [LineForLine, heard_cons_of_quits h, hreply]
  refine ⟨[x], by simp, rfl, fun k l' x' hl hx' => ?_⟩
  obtain rfl : k = 0 := by simpa using (List.getElem?_eq_some_iff.mp hl).1
  obtain rfl : l = l' := by simpa using hl
  obtain rfl : x = x' := by simpa using hx'
  exact ⟨hreply, hx⟩

/-- A line is answered before the lines behind it, or it is passed over. -/
theorem LineForLine.cons {output : Text} (hquits : ¬ Quits l)
    (h : LineForLine files (c.turn { line := l, files }).console lines output) :
    LineForLine files c (l :: lines) (written (c.turn { line := l, files }).reply ++ output) := by
  by_cases hspeaks : Speaks l
  · obtain ⟨x, hreply, hx⟩ := exists_reply_turn c files hspeaks
    obtain ⟨replies, rfl, hlength, hreplies⟩ := h
    rw [LineForLine, heard_cons hspeaks hquits, hreply]
    refine ⟨x :: replies, by simp, by simp [hlength], fun k l' x' hl hx' => ?_⟩
    cases k with
    | zero =>
      obtain rfl : l = l' := by simpa using hl
      obtain rfl : x = x' := by simpa using hx'
      exact ⟨hreply, hx⟩
    | succ k => exact hreplies k l' x' hl hx'
  · rw [turn_of_silent c files hspeaks] at h ⊢
    rwa [LineForLine, heard_cons_of_silent hspeaks]

end Console

namespace Program

open CommandLine

variable {files : Files} {c : Console} {l t : Text}

/-! ## The command loop -/

/-- Nothing is read once the console has stopped. -/
theorem converse_of_stopped (files : Files) (h : ¬ c.running = true) (lines : List Text) :
    converse files c lines = ([], []) := by
  cases lines with
  | nil => rfl
  | cons l rest => rw [converse, if_neg h]

theorem converse_cons (files : Files) (hc : c.running = true) (l : Text) (rest : List Text) :
    converse files c (l :: rest)
      = (Console.written (c.turn { line := l, files }).reply
          ++ (converse files (c.turn { line := l, files }).console rest).1,
        notes (c.turn { line := l, files }).log
          ++ (converse files (c.turn { line := l, files }).console rest).2) := by
  rw [converse, if_pos hc]
  rfl

/-- **The command loop answers line for line.** -/
theorem lineForLine_converse (files : Files) (hc : c.running = true) (lines : List Text) :
    c.LineForLine files lines (converse files c lines).1 := by
  induction lines generalizing c with
  | nil => exact Console.lineForLine_nil files c
  | cons l rest ih =>
    have hrunning := Console.running_turn c files l
    rw [converse_cons files hc]
    by_cases hquits : Quits l
    · -- the loop ends, and what follows is not read
      rw [converse_of_stopped files (fun h => (hrunning.mp h).2 hquits), List.append_nil]
      exact Console.lineForLine_of_quits c files hquits
    · exact (ih (hrunning.mpr ⟨hc, hquits⟩)).cons hquits

/-- What is passed over does not change the conversation. -/
theorem converse_cons_of_silent (files : Files) (c : Console) (h : ¬ Speaks l)
    (rest : List Text) : converse files c (l :: rest) = converse files c rest := by
  by_cases hc : c.running = true
  · rw [converse_cons files hc, Console.turn_of_silent c files h]
    rfl
  · rw [converse_of_stopped files hc, converse_of_stopped files hc]

theorem converse_cons_congr (l : Text) {rest rest' : List Text}
    (h : ∀ c, converse files c rest = converse files c rest') :
    converse files c (l :: rest) = converse files c (l :: rest') := by
  by_cases hc : c.running = true
  · rw [converse_cons files hc, converse_cons files hc, h]
  · rw [converse_of_stopped files hc, converse_of_stopped files hc]

theorem converse_cons_append_newline (files : Files) (c : Console) (l : Text) (rest : List Text) :
    converse files c ((l ++ [Text.newline]) :: rest) = converse files c (l :: rest) := by
  by_cases hc : c.running = true
  · rw [converse_cons files hc, converse_cons files hc, Console.turn_append_newline]
  · rw [converse_of_stopped files hc, converse_of_stopped files hc]

/-! ## Pieces -/

theorem firstPiece_append_eq (n : Nat) (t : Text) :
    (firstPiece n t).1 ++ (firstPiece n t).2 = t := by
  fun_induction firstPiece n t with
  | case1 | case2 | case3 => rfl
  | case4 n b rest hb piece left h ih =>
    rw [h] at ih
    exact congrArg (b :: ·) ih

theorem length_firstPiece_le (n : Nat) (t : Text) : (firstPiece n t).1.length ≤ n := by
  fun_induction firstPiece n t with
  | case1 | case2 => exact Nat.zero_le _
  | case3 => exact Nat.succ_le_succ (Nat.zero_le _)
  | case4 n b rest hb piece left h ih =>
    rw [h] at ih
    exact Nat.succ_le_succ ih

theorem length_firstPiece_pos {n : Nat} (hn : 0 < n) (ht : t ≠ []) :
    0 < (firstPiece n t).1.length := by
  obtain ⟨b, rest, rfl⟩ := List.exists_cons_of_ne_nil ht
  obtain ⟨n, rfl⟩ := Nat.exists_eq_add_one_of_ne_zero (Nat.ne_of_gt hn)
  rw [firstPiece]
  split <;> exact Nat.succ_pos _

/-- As much of a text as fits in a piece, if its first line does not end before. -/
theorem firstPiece_append (hline : Text.newline ∉ l) (t : Text) :
    firstPiece l.length (l ++ t) = (l, t) := by
  induction l with
  | nil => rfl
  | cons b l ih =>
    have hb : b ≠ Text.newline := fun h => hline (h ▸ List.mem_cons_self)
    rw [List.length_cons, List.cons_append, firstPiece, if_neg hb,
      ih fun h => hline (List.mem_cons_of_mem b h)]

/-- A line that fits with its line end is the first piece. -/
theorem firstPiece_line {n : Nat} (hline : Text.newline ∉ l) (hlength : l.length < n) (t : Text) :
    firstPiece n (l ++ Text.newline :: t) = (l ++ [Text.newline], t) := by
  induction l generalizing n with
  | nil =>
    obtain ⟨n, rfl⟩ := Nat.exists_eq_add_one_of_ne_zero (Nat.ne_of_gt hlength)
    rfl
  | cons b l ih =>
    have hb : b ≠ Text.newline := fun h => hline (h ▸ List.mem_cons_self)
    obtain ⟨n, rfl⟩ := Nat.exists_eq_add_one_of_ne_zero (Nat.ne_of_gt (Nat.zero_lt_of_lt hlength))
    rw [List.cons_append, firstPiece, if_neg hb,
      ih (fun h => hline (List.mem_cons_of_mem b h)) (Nat.lt_of_succ_lt_succ hlength)]
    rfl

/-- A last line that fits is the first piece. -/
theorem firstPiece_last {n : Nat} (hline : Text.newline ∉ l) (hlength : l.length ≤ n) :
    firstPiece n l = (l, []) := by
  induction l generalizing n with
  | nil => cases n <;> rfl
  | cons b l ih =>
    have hb : b ≠ Text.newline := fun h => hline (h ▸ List.mem_cons_self)
    obtain ⟨n, rfl⟩ := Nat.exists_eq_add_one_of_ne_zero (Nat.ne_of_gt (Nat.zero_lt_of_lt hlength))
    rw [firstPiece, if_neg hb,
      ih (fun h => hline (List.mem_cons_of_mem b h)) (Nat.le_of_succ_le_succ hlength)]

theorem pieces_nil : pieces [] = [] := by
  rw [pieces]

/-- A text is read piece by piece. -/
theorem pieces_of_ne_nil (h : t ≠ []) :
    pieces t = (firstPiece lineLimit t).1 :: pieces (firstPiece lineLimit t).2 := by
  obtain ⟨b, rest, rfl⟩ := List.exists_cons_of_ne_nil h
  rw [pieces]
  by_cases hb : b = Text.newline
  · simp [lineLimit, firstPiece, hb]
  · simp [lineLimit, firstPiece, hb]

/-- What fits of a line that does not is a piece. -/
theorem pieces_append (hline : Text.newline ∉ l) (hlength : l.length = lineLimit) (t : Text) :
    pieces (l ++ t) = l :: pieces t := by
  have hne : l ++ t ≠ [] := fun h => by
    rw [(List.append_eq_nil_iff.mp h).1] at hlength
    exact absurd hlength (by decide)
  rw [pieces_of_ne_nil hne, ← hlength, firstPiece_append hline]

theorem pieces_line (hline : Text.newline ∉ l) (hlength : l.length < lineLimit) (t : Text) :
    pieces (l ++ Text.newline :: t) = (l ++ [Text.newline]) :: pieces t := by
  rw [pieces_of_ne_nil (by simp), firstPiece_line hline hlength]

theorem pieces_only_line (hline : Text.newline ∉ l) (hlength : l.length < lineLimit) :
    pieces (l ++ [Text.newline]) = [l ++ [Text.newline]] := by
  rw [pieces_line hline hlength, pieces_nil]

theorem pieces_last (hline : Text.newline ∉ l) (hlength : l.length ≤ lineLimit) (hne : l ≠ []) :
    pieces l = [l] := by
  rw [pieces_of_ne_nil hne, firstPiece_last hline hlength, pieces_nil]

/-- **The pieces are the text**, and each of them fits. -/
theorem flatten_pieces (t : Text) :
    (pieces t).flatten = t ∧ ∀ piece ∈ pieces t, piece.length ≤ lineLimit := by
  induction hn : t.length using Nat.strongRecOn generalizing t with
  | _ n ih =>
    by_cases hnil : t = []
    · subst hnil
      rw [pieces_nil]
      exact ⟨rfl, fun _ h => absurd h List.not_mem_nil⟩
    have hparts := firstPiece_append_eq lineLimit t
    have hshorter : (firstPiece lineLimit t).2.length < n := by
      have hlength := congrArg List.length hparts
      rw [List.length_append] at hlength
      have hpos := length_firstPiece_pos (n := lineLimit) (by decide) hnil
      omega
    obtain ⟨hflatten, hfit⟩ := ih _ hshorter _ rfl
    rw [pieces_of_ne_nil hnil]
    refine ⟨by rw [List.flatten_cons, hflatten, hparts], fun piece hpiece => ?_⟩
    rcases List.mem_cons.mp hpiece with rfl | hpiece
    · exact length_firstPiece_le _ _
    · exact hfit piece hpiece

/-- **What is heard of lines that fit are the lines.** The piece of a line that just fits is without
the line end, which then is a piece of its own. -/
theorem converse_pieces (files : Files) (c : Console)
    (hfit : ∀ l ∈ t.splitOn Text.newline, l.length ≤ lineLimit) :
    converse files c (pieces t) = converse files c (t.splitOn Text.newline) := by
  induction hn : t.length using Nat.strongRecOn generalizing t c with
  | _ n ih =>
    by_cases hmem : Text.newline ∈ t
    · obtain ⟨l, rest, rfl, hline⟩ := List.eq_append_cons_of_mem hmem
      rw [List.splitOn_append_cons_self_of_not_mem hline] at hfit ⊢
      have hshorter : rest.length < n := by
        rw [← hn, List.length_append, List.length_cons]
        omega
      have hrest : ∀ c, converse files c (pieces rest)
          = converse files c (rest.splitOn Text.newline) := fun c =>
        ih _ hshorter c (fun l hl => hfit l (List.mem_cons_of_mem _ hl)) rfl
      have hlength := hfit l List.mem_cons_self
      rcases Nat.lt_or_eq_of_le hlength with hlt | heq
      · rw [pieces_line hline hlt, converse_cons_append_newline]
        exact converse_cons_congr l hrest
      · rw [pieces_append hline heq]
        refine converse_cons_congr l fun c => ?_
        have hend : pieces (Text.newline :: rest) = [Text.newline] :: pieces rest :=
          pieces_line (l := []) List.not_mem_nil (by decide) rest
        rw [hend, converse_cons_of_silent files c (by decide), hrest c]
    · rw [List.splitOn_eq_singleton hmem] at hfit ⊢
      by_cases hnil : t = []
      · subst hnil
        rw [pieces_nil, converse_cons_of_silent files c (by decide)]
      · rw [pieces_last hmem (hfit t List.mem_cons_self) hnil]

/-! ## The program -/

/-- The console is running before any command. -/
theorem running_begin {o : Options} {diagnostics : Text}
    (h : begin files o = .ok (c, diagnostics)) : c.running = true := by
  unfold begin at h
  split at h
  · cases h
    rfl
  · dsimp only at h
    split at h
    · cases h
      rfl
    · cases h

/-- A program without a request, a listing and a port reads commands. -/
theorem run_eq_converse (name input : Text) {diagnostics : Text} {args : List Text} {o : Options}
    (hargs : parse {} args = .ok o) (hrequest : o.request = none) (hrows : o.rows < 0)
    (hport : o.port ≤ 0) (hbegin : begin files o = .ok (c, diagnostics)) :
    run name files args input
      = { exit := 0, output := (converse files c (pieces input)).1
          diagnostics := diagnostics ++ (converse files c (pieces input)).2 } := by
  have hstart : start name files o = .conversing c diagnostics := by
    simp [start, hrequest, hbegin, Int.not_le.mpr hrows, Int.not_lt.mpr hport]
  simp [run, hargs, hstart]

/--
**The program answers line for line.**

Take a program whose arguments ask for no listing, no port and no request, and which can load the
image that they name. Whatever the bytes of its standard input are, it reads them in pieces that
fit, and answers line for line to the pieces. If all lines fit, it answers line for line to them:
for each line up to the first one that quits there is one line of output if something is said in it,
and none otherwise.
-/
theorem output_line_for_line (name input : Text) {diagnostics : Text} {args : List Text}
    {o : Options} (hargs : parse {} args = .ok o) (hrequest : o.request = none)
    (hrows : o.rows < 0) (hport : o.port ≤ 0) (hbegin : begin files o = .ok (c, diagnostics)) :
    let outcome := run name files args input
    outcome.exit = 0
      ∧ ((pieces input).flatten = input ∧ (∀ piece ∈ pieces input, piece.length ≤ lineLimit)
        ∧ c.LineForLine files (pieces input) outcome.output)
      ∧ ((∀ l ∈ input.splitOn Text.newline, l.length ≤ lineLimit) →
        c.LineForLine files (input.splitOn Text.newline) outcome.output) := by
  intro outcome
  have hrunning := running_begin hbegin
  obtain ⟨hflatten, hpieces⟩ := flatten_pieces input
  have hrun : outcome = _ := run_eq_converse name input hargs hrequest hrows hport hbegin
  rw [hrun]
  refine ⟨rfl, ⟨hflatten, hpieces, lineForLine_converse files hrunning _⟩, fun hfit => ?_⟩
  rw [converse_pieces files c hfit]
  exact lineForLine_converse files hrunning _

/-- The last line is not read. -/
theorem output_line_for_line_help :
    let files : Files := fun _ => .missing "No such file or directory"
    let input : Text := "help\n \r\nquit\nhelp"
    let outcome := run "dissect" files [] input
    (∀ l ∈ input.splitOn Text.newline, l.length ≤ lineLimit)
      ∧ ({} : Console).LineForLine files (input.splitOn Text.newline) outcome.output
      ∧ CommandLine.heard (input.splitOn Text.newline)
        = [Text.ofString "help", Text.ofString "quit"] := by
  intro files input outcome
  have hlines : input.splitOn Text.newline
      = ["help", " \r", "quit", "help"].map Text.ofString := by
    decide
  have hfit : ∀ l ∈ input.splitOn Text.newline, l.length ≤ lineLimit := by
    rw [hlines]
    decide
  have hargs : parse {} [] = .ok {} := rfl
  have hbegin : begin files {} = .ok ({}, []) := rfl
  obtain ⟨-, -, hanswered⟩ :=
    output_line_for_line "dissect" input hargs rfl (by decide) (by decide) hbegin
  exact ⟨hfit, hanswered hfit, by rw [hlines]; decide⟩

/-- A request for help with so many spaces behind it that nothing else fits. -/
def paddedHelp : Text :=
  Text.ofString "help" ++ List.replicate (lineLimit - 4) (Text.code ' ')

/-- What does not fit of a line is carried out as a line of its own, and nothing is said in a line
that starts with a NUL. -/
theorem long_line_answered_twice :
    let files : Files := fun _ => .missing "No such file or directory"
    let input : Text := paddedHelp ++ Text.ofString "quit\n"
    (CommandLine.heard (input.splitOn Text.newline)).length = 1
      ∧ (run "dissect" files [] input).output.count Text.newline = 2
      ∧ ¬ ({} : Console).LineForLine files (input.splitOn Text.newline)
        (run "dissect" files [] input).output
      ∧ (run "dissect" files [] (0 :: Text.ofString "help\n")).output = [] := by
  intro files input
  have hargs : parse {} [] = .ok {} := rfl
  have hbegin : begin files {} = .ok ({}, []) := rfl
  have hrun : ∀ t, (run "dissect" files [] t).output = (converse files {} (pieces t)).1 := fun t =>
    congrArg Outcome.output (run_eq_converse "dissect" t hargs rfl (by decide) (by decide) hbegin)
  have hheard : (CommandLine.heard (input.splitOn Text.newline)).length = 1 := by
    have hline : Text.newline ∉ paddedHelp ++ Text.ofString "quit" := by decide +kernel
    have hinput : input = (paddedHelp ++ Text.ofString "quit") ++ [Text.newline] :=
      (List.append_assoc paddedHelp (Text.ofString "quit") [Text.newline]).symm
    rw [hinput, List.splitOn_append_cons_self_of_not_mem hline, List.splitOn_nil]
    decide +kernel
  have hcount : (run "dissect" files [] input).output.count Text.newline = 2 := by
    have hline : Text.newline ∉ paddedHelp := by decide +kernel
    have hquit : pieces (Text.ofString "quit\n") = [Text.ofString "quit\n"] :=
      pieces_only_line (l := Text.ofString "quit") (by decide) (by decide)
    rw [hrun, (lineForLine_converse files rfl _).count_newline,
      pieces_append hline (by decide +kernel), hquit]
    decide +kernel
  have hnul : (run "dissect" files [] (0 :: Text.ofString "help\n")).output = [] := by
    have hpieces : pieces (0 :: Text.ofString "help\n") = [0 :: Text.ofString "help\n"] :=
      pieces_only_line (l := 0 :: Text.ofString "help") (by decide) (by decide)
    rw [hrun, hpieces, converse_cons_of_silent files {} (by decide)]
    rfl
  exact ⟨hheard, hcount, fun h => absurd (hcount ▸ h.count_newline) (by rw [hheard]; decide), hnul⟩

end Program

end Disassembler
