import Disassembler.Console.Command
import Mathlib.Data.List.DropRight
import Mathlib.Data.List.TakeWhile

/-!
# Lines are cut into words

A line is a command and a text behind it. What is left of the text when the line has been cut is its
first word: the text itself exactly if it is one word, with no blank and no NUL in it and not too
long. The blanks that are trimmed from the end of a line make no difference, for a word ends before
them.
-/

namespace Disassembler

/-- A text without a NUL is read to its end. -/
theorem Text.untilNul_of_notMem {t : Text} (h : 0 ∉ t) : t.untilNul = t := by
  refine List.takeWhile_eq_self_iff.mpr ?_
  intro b hb
  exact bne_iff_ne.mpr fun hzero => h (hzero ▸ hb)

namespace CommandLine

/-- A text is one word of at most so many bytes. -/
structure IsWord (width : Nat) (w : Text) : Prop where
  ne_nil : w ≠ []
  length_le : w.length ≤ width
  not_blank : ∀ b ∈ w, Text.isBlank b = false

theorem isWord_iff {width : Nat} {w : Text} : IsWord width w
    ↔ w ≠ [] ∧ w.length ≤ width ∧ w.all (!Text.isBlank ·) = true := by
  simp only [List.all_eq_true, Bool.not_eq_true']
  exact ⟨fun h => ⟨h.ne_nil, h.length_le, h.not_blank⟩, fun h => ⟨h.1, h.2.1, h.2.2⟩⟩

instance (width : Nat) (w : Text) : Decidable (IsWord width w) :=
  decidable_of_iff _ isWord_iff.symm

/-- The first word of a text. -/
def firstWord (t : Text) : Option Text := (word? wordWidth t).map Prod.fst

/-- The line that says a text behind a command. -/
def saying (c : Command) (t : Text) : Text := Text.ofString c.name ++ 32 :: t

variable {width : Nat} {t s w rest : Text}

/-! ## Words -/

theorem takeWhile_append_of_blank (hs : ∀ b ∈ s, Text.isBlank b = true) (t : Text) :
    (t ++ s).takeWhile (!Text.isBlank ·) = t.takeWhile (!Text.isBlank ·) := by
  have hnone : s.takeWhile (!Text.isBlank ·) = [] := by
    cases s with
    | nil => rfl
    | cons b s => exact List.takeWhile_cons_of_neg (by simp [hs b List.mem_cons_self])
  rw [List.takeWhile_append, hnone, List.append_nil]
  split
  · rename_i hall
    exact ((List.takeWhile_prefix _).eq_of_length hall).symm
  · rfl

/-- **Blanks behind a text do not change its first word.** -/
theorem word?_append_blank (hs : ∀ b ∈ s, Text.isBlank b = true) :
    word? width (t ++ s) = (word? width t).map fun p => (p.1, p.2 ++ s) := by
  by_cases ht : t.dropWhile Text.isBlank = []
  · -- nothing but blanks is there
    have hboth : (t ++ s).dropWhile Text.isBlank = [] := by
      refine List.dropWhile_eq_nil_iff.mpr fun b hb => ?_
      rcases List.mem_append.mp hb with hb | hb
      · exact List.dropWhile_eq_nil_iff.mp ht b hb
      · exact hs b hb
    simp [word?, ht, hboth]
  · have hdrop : (t ++ s).dropWhile Text.isBlank = t.dropWhile Text.isBlank ++ s := by
      rw [List.dropWhile_append, if_neg (by simpa using ht)]
    simp only [word?, hdrop]
    generalize t.dropWhile Text.isBlank = u
    have hword : ((u ++ s).take width).takeWhile (!Text.isBlank ·)
        = (u.take width).takeWhile (!Text.isBlank ·) := by
      rw [← List.take_takeWhile, ← List.take_takeWhile, takeWhile_append_of_blank hs]
    have hlength : ((u.take width).takeWhile (!Text.isBlank ·)).length ≤ u.length :=
      (List.takeWhile_prefix _).length_le.trans (List.length_take_le' width u)
    rw [hword]
    split
    · rfl
    · rw [List.drop_append_of_le_length hlength]
      rfl

theorem isWord_of_word? (h : word? width t = some (w, rest)) : IsWord width w := by
  simp only [word?] at h
  generalize t.dropWhile Text.isBlank = u at h
  split at h
  · cases h
  · rename_i hempty
    obtain ⟨rfl, -⟩ := Prod.mk.inj (Option.some.inj h)
    refine ⟨fun hnil => hempty (List.isEmpty_iff.mpr hnil), ?_, fun b hb => ?_⟩
    · exact (List.takeWhile_prefix _).length_le.trans (List.length_take_le width u)
    · simpa using List.mem_takeWhile_imp hb

/-- A word is the first one of a text that begins with it and goes on with a blank, or not at all. -/
theorem word?_append (hw : IsWord width w) (hrest : ∀ b ∈ rest.head?, Text.isBlank b = true) :
    word? width (w ++ rest) = some (w, rest) := by
  have hword : ((w ++ rest).take width).takeWhile (!Text.isBlank ·) = w := by
    have hnone : rest.takeWhile (!Text.isBlank ·) = [] := by
      cases rest with
      | nil => rfl
      | cons b rest => exact List.takeWhile_cons_of_neg (by simp [hrest b rfl])
    rw [← List.take_takeWhile,
      List.takeWhile_append_of_pos fun b hb => by simp [hw.not_blank b hb], hnone,
      List.append_nil, List.take_of_length_le hw.length_le]
  have hdrop : (w ++ rest).dropWhile Text.isBlank = w ++ rest := by
    obtain ⟨b, w, rfl⟩ := List.exists_cons_of_ne_nil hw.ne_nil
    exact List.dropWhile_cons_of_neg (by simp [hw.not_blank b List.mem_cons_self])
  simp only [word?, hdrop, hword, List.isEmpty_iff, if_neg hw.ne_nil, List.drop_left]

theorem isWord_of_firstWord (h : firstWord t = some w) : IsWord wordWidth w := by
  obtain ⟨p, hp, rfl⟩ := Option.map_eq_some_iff.mp h
  exact isWord_of_word? hp

/-- **The first word of a text is the text exactly if the text is one word.** -/
theorem firstWord_eq_self_iff : firstWord t = some t ↔ IsWord wordWidth t := by
  refine ⟨isWord_of_firstWord, fun h => ?_⟩
  have hword : word? wordWidth (t ++ []) = some (t, []) := word?_append h (by simp)
  rw [List.append_nil] at hword
  rw [firstWord, hword]
  rfl

theorem subset_of_firstWord (h : firstWord t = some w) : w ⊆ t := by
  obtain ⟨⟨word, rest⟩, hword, rfl⟩ := Option.map_eq_some_iff.mp h
  simp only [word?] at hword
  split at hword
  · cases hword
  · obtain ⟨rfl, -⟩ := Prod.mk.inj (Option.some.inj hword)
    exact ((List.takeWhile_sublist _).trans
      ((List.take_sublist _ _).trans (List.dropWhile_sublist _))).subset

theorem firstWord_append_blank (hs : ∀ b ∈ s, Text.isBlank b = true) :
    firstWord (t ++ s) = firstWord t := by
  rw [firstWord, word?_append_blank hs, Option.map_map]
  rfl

/-! ## Texts that are one word -/

/-- A text that can be typed: it is one word, and no NUL is in it. -/
structure Typeable (t : Text) : Prop where
  word : IsWord wordWidth t
  nul_notMem : 0 ∉ t

theorem typeable_of_firstWord (h : firstWord t.untilNul = some w) : Typeable w where
  word := isWord_of_firstWord h
  nul_notMem := by
    intro hzero
    have hbefore := List.mem_takeWhile_imp (subset_of_firstWord h hzero)
    exact Bool.false_ne_true hbefore

/-- **What is left of a text is the text exactly if it can be typed.** -/
theorem firstWord_untilNul_eq_self_iff : firstWord t.untilNul = some t ↔ Typeable t := by
  refine ⟨typeable_of_firstWord, ?_⟩
  rintro ⟨hword, hnul⟩
  rw [Text.untilNul_of_notMem hnul]
  exact firstWord_eq_self_iff.mpr hword

/-! ## Lines -/

theorem split_of_word? {command : Text} (h : word? commandWidth t = some (command, rest)) :
    (split t).command = command ∧ (split t).first = firstWord rest := by
  rw [split, firstWord, h]
  dsimp only
  split
  · rename_i hnone
    rw [hnone]
    exact ⟨rfl, rfl⟩
  rename_i hfirst
  rw [hfirst]
  split
  · exact ⟨rfl, rfl⟩
  · exact ⟨rfl, rfl⟩

/-- What does not count at the end of a line are blanks. -/
theorem exists_trim_append (line : Text) :
    ∃ s, line.untilNul = trim line ++ s ∧ ∀ b ∈ s, Text.isBlank b = true := by
  refine ⟨line.untilNul.rtakeWhile isTrailing, List.rdropWhile_append_rtakeWhile.symm,
    fun b hb => ?_⟩
  have htrailing := List.mem_rtakeWhile_imp hb
  simp only [isTrailing, Bool.or_eq_true, beq_iff_eq] at htrailing
  rcases htrailing with (rfl | rfl) | rfl
  · rfl
  · rfl
  · rfl

theorem isWord_name (c : Command) :
    IsWord commandWidth (Text.ofString c.name) ∧ 0 ∉ Text.ofString c.name := by
  cases c with
  | load | info | goto | list | back | lookup | symbol | resolve | hex | seeds | help | quit =>
    decide

/-- **Of a text behind a command the first word is left**, up to the first NUL. -/
theorem split_saying (c : Command) (t : Text) :
    let args := split (trim (saying c t))
    args.command = Text.ofString c.name ∧ args.first = firstWord t.untilNul := by
  intro args
  obtain ⟨hname, hnul⟩ := isWord_name c
  have huntil : (saying c t).untilNul = Text.ofString c.name ++ 32 :: t.untilNul := by
    refine (List.takeWhile_append_of_pos fun b hb => ?_).trans rfl
    exact bne_iff_ne.mpr fun hzero => hnul (hzero ▸ hb)
  obtain ⟨s, htrim, hs⟩ := exists_trim_append (saying c t)
  have hcommand : word? commandWidth (trim (saying c t) ++ s)
      = some (Text.ofString c.name, 32 :: t.untilNul) := by
    rw [← htrim, huntil]
    exact word?_append hname fun b hb => by
      obtain rfl := Option.some.inj hb
      rfl
  -- the same without what was trimmed
  rw [word?_append_blank hs, Option.map_eq_some_iff] at hcommand
  obtain ⟨⟨command, rest⟩, hword, hboth⟩ := hcommand
  obtain ⟨rfl, hrest⟩ := Prod.mk.inj hboth
  obtain ⟨hcommand, hfirst⟩ := split_of_word? hword
  refine ⟨hcommand, hfirst.trans ?_⟩
  rw [← firstWord_append_blank hs, show rest ++ s = 32 :: t.untilNul from hrest]
  rfl

end CommandLine

namespace Command

theorem ofName?_name (c : Command) : ofName? (Text.ofString c.name) = some c := by
  cases c with
  | load | info | goto | list | back | lookup | symbol | resolve | hex | seeds | help | quit =>
    decide

end Command

end Disassembler
