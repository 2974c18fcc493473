import Disassembler.Proofs.Debug.Reading

/-!
# What fails adds nothing

Reading ends at the first object that fails, and the objects before it stay. The reader goes forward
only, and looks at one byte of what it leaves at most: the one that ends a number or a run of blanks.
Behind an object that has a brace at its end it leaves everything. So it is all the same to the
objects that were read what follows them, and the text up to the one that failed says what the whole
text says.
-/

namespace Disassembler.Debug

variable {m m' : Members} {c c' : Contents} {n size count : Nat} {t after left back : Text}
  {e : ReadError}

/-! ## One byte ahead -/

/-- What is taken from the front of a text is the same for any text that is left, if it begins with
the same byte. -/
def OneAhead (leaves : Text → Text → Prop) : Prop :=
  ∀ t after, after ≠ [] → leaves t after →
    ∃ front, t = front ++ after ∧ ∀ r, r.head? = after.head? → leaves (front ++ r) r

/-- Readers one after another look no further ahead than the last one. -/
theorem OneAhead.comp {first second : Text → Text → Prop} (hfirst : OneAhead first)
    (hsecond : OneAhead second) :
    OneAhead fun t after => ∃ middle, first t middle ∧ second middle after := by
  intro t after hafter hboth
  obtain ⟨middle, ht, hmiddle⟩ := hboth
  -- the second reader says where the first one stopped, and what byte it saw there
  obtain ⟨inner, rfl, hinner⟩ := hsecond middle after hafter hmiddle
  have hne : inner ++ after ≠ [] := by simp [hafter]
  obtain ⟨front, rfl, hfront⟩ := hfirst t (inner ++ after) hne ht
  refine ⟨front ++ inner, (List.append_assoc front inner after).symm, fun r hr => ?_⟩
  have hhead : (inner ++ r).head? = (inner ++ after).head? := by
    rw [List.head?_append, List.head?_append, hr]
  rw [List.append_assoc]
  exact ⟨inner ++ r, hfront (inner ++ r) hhead, hinner r hr⟩

theorem oneAhead_dropWhile (p : UInt8 → Bool) :
    OneAhead fun t after => t.dropWhile p = after := by
  intro t after hafter hdrop
  refine ⟨t.takeWhile p, ?_, fun r hr => ?_⟩
  · rw [← hdrop, List.takeWhile_append_dropWhile]
  · have hrun : ∀ b ∈ t.takeWhile p, p b = true := fun b => List.mem_takeWhile_imp
    show (t.takeWhile p ++ r).dropWhile p = r
    rw [List.dropWhile_append_of_pos hrun]
    -- what ended the run in the one text ends it in the other
    cases r with
    | nil => rfl
    | cons b r =>
      have hhead := List.head?_dropWhile_not p t
      rw [hdrop, ← hr, List.head?_cons] at hhead
      exact List.dropWhile_cons_of_neg (by simpa using hhead)

/-! ## Strings and values -/

/-- If something is left behind a string, a quote closes it, and the search for that quote passes
over all that is before. -/
theorem exists_passed_of_untilQuote (hafter : after ≠ []) (h : (untilQuote t).2 = after) :
    ∃ inner, t = inner ++ Text.code '"' :: after ∧ Passed inner := by
  fun_induction untilQuote t with
  | case1 => exact absurd h.symm hafter
  | case2 => exact absurd h.symm hafter
  | case3 => exact absurd h.symm hafter
  | case4 b rest inner left hrest ih =>
    obtain ⟨front, hfront, hpassed⟩ := ih (by rw [hrest]; exact h)
    exact ⟨[Text.code '\\', b] ++ front, by simp [hfront], (passed_escaped b).append hpassed⟩
  | case5 b rest =>
    exact ⟨[], by simp [← h], passed_nil⟩
  | case6 b c rest hslash hquote inner left hrest ih =>
    obtain ⟨front, hfront, hpassed⟩ := ih (by rw [hrest]; exact h)
    exact ⟨[b] ++ front, by simp [hfront], (passed_plain hslash hquote).append hpassed⟩

theorem oneAhead_string? (s : Text) : OneAhead fun t after => string? t = some (s, after) := by
  intro t after hafter h
  obtain ⟨rest, rfl⟩ := exists_quote_of_string? h
  have hfound := h
  rw [string?, if_pos rfl] at hfound
  have hleft : (untilQuote rest).2 = after := (Prod.mk.inj (Option.some.inj hfound)).2
  obtain ⟨inner, rfl, hpassed⟩ := exists_passed_of_untilQuote hafter hleft
  have hstring := string?_of_passed hpassed
  have hs : s = unescape inner :=
    (Prod.mk.inj (Option.some.inj (h.symm.trans (hstring after)))).1
  refine ⟨Text.code '"' :: (inner ++ [Text.code '"']), by simp, fun r _ => ?_⟩
  show string? (Text.code '"' :: (inner ++ [Text.code '"']) ++ r) = some (s, r)
  rw [hs, ← hstring r]
  simp

/-- What a value is: a string, a number, or any other byte. -/
theorem readValue_cases {key : Text} (hafter : after ≠ [])
    (h : m.readValue key t = .ok (m', after)) :
    (∃ value, string? t = some (value, after) ∧ m.setString key value = .ok m')
      ∨ (∃ ds, t = ds ++ after ∧ Json.Digits ds ∧ EndsNumber after
        ∧ m' = m.setNumber key (UInt64.ofNat (Text.numeral 10 ds)))
      ∨ ∃ b, t = b :: after ∧ b ≠ Text.code '"' ∧ Text.isDigit 10 b = false ∧ m' = m := by
  cases hstring : string? t with
  | some found =>
    obtain ⟨value, rest⟩ := found
    rw [readValue_string m hstring] at h
    cases hset : m.setString key value with
    | error e =>
      rw [hset] at h
      exact absurd h (by simp [Except.map])
    | ok m₁ =>
      rw [hset] at h
      obtain ⟨rfl, rfl⟩ := Prod.mk.inj (Except.ok.inj h)
      exact .inl ⟨value, rfl, hset⟩
  | none =>
    rw [Members.readValue, hstring] at h
    cases t with
    | nil =>
      obtain ⟨-, rfl⟩ := Prod.mk.inj (Except.ok.inj h)
      exact absurd rfl hafter
    | cons b rest =>
      by_cases hdigit : Text.isDigit 10 b = true
      · have hne : (b :: rest).takeWhile (Text.isDigit 10) ≠ [] := by
          rw [List.takeWhile_cons_of_pos hdigit]
          exact List.cons_ne_nil _ _
        simp only [List.isEmpty_iff, hne, if_false] at h
        obtain ⟨rfl, hleft⟩ := Prod.mk.inj (Except.ok.inj h)
        have hdigits : Json.Digits ((b :: rest).takeWhile (Text.isDigit 10)) :=
          ⟨hne, fun d => List.mem_takeWhile_imp⟩
        refine .inr (.inl ⟨_, ?_, hdigits, fun d hd => ?_, rfl⟩)
        · rw [← hleft, List.takeWhile_append_dropWhile]
        · have hhead := List.head?_dropWhile_not (Text.isDigit 10) (b :: rest)
          rw [hleft, hd] at hhead
          simpa using hhead
      · simp only [List.takeWhile_cons_of_neg hdigit, List.isEmpty_nil] at h
        obtain ⟨rfl, rfl⟩ := Prod.mk.inj (Except.ok.inj h)
        exact .inr (.inr ⟨b, rfl, string?_eq_none_iff.mp hstring, by simpa using hdigit, rfl⟩)

theorem oneAhead_readValue (m : Members) (key : Text) (m' : Members) :
    OneAhead fun t after => m.readValue key t = .ok (m', after) := by
  intro t after hafter h
  rcases readValue_cases hafter h with ⟨value, hstring, hset⟩ | ⟨ds, rfl, hds, hends, rfl⟩
    | ⟨b, rfl, hquote, hdigit, rfl⟩
  · obtain ⟨front, rfl, hfront⟩ := oneAhead_string? value t after hafter hstring
    refine ⟨front, rfl, fun r hr => ?_⟩
    show m.readValue key (front ++ r) = .ok (m', r)
    rw [readValue_string m (hfront r hr), hset]
    rfl
  · refine ⟨ds, rfl, fun r hr => readValue_digits m key hds ?_⟩
    intro d hd
    exact hends d (hr ▸ hd)
  · exact ⟨[b], rfl, fun r _ => readValue_other m' key hquote hdigit r⟩

/-! ## Members -/

/-- A member is read: a key, and behind it a value that is set. -/
def MemberRead (m : Members) (t : Text) (m' : Members) (left : Text) : Prop :=
  ∃ key after, string? (t.dropWhile Members.isSeparator) = some (key, after) ∧ key ≠ []
    ∧ m.readValue key (after.dropWhile Members.isAssignment) = .ok (m', left)

/-- Members are read one after another, up to a brace or to the end of the text. -/
inductive MembersRead : Members → Text → Members → Text → Prop where
  | cut {m : Members} {t : Text} : t.dropWhile Members.isSeparator = [] → MembersRead m t m []
  | close {m : Members} {t after : Text} :
      t.dropWhile Members.isSeparator = Text.code '\x7d' :: after → MembersRead m t m after
  | member {m m₁ m' : Members} {t left after : Text} : MemberRead m t m₁ left →
      MembersRead m₁ left m' after → MembersRead m t m' after

theorem membersRead_of_readMembers (h : readMembers size m t = .ok (m', after)) :
    MembersRead m t m' after := by
  fun_induction readMembers size m t with
  | case1 m t hdrop =>
    obtain ⟨rfl, rfl⟩ := Prod.mk.inj (Except.ok.inj h)
    exact .cut hdrop
  | case2 m t rest hdrop =>
    obtain ⟨rfl, rfl⟩ := Prod.mk.inj (Except.ok.inj h)
    exact .close hdrop
  | case3 => exact absurd h (by simp)
  | case4 => exact absurd h (by simp)
  | case5 => exact absurd h (by simp)
  | case6 m t b rest hdrop _ key after hkey hne m₁ left hvalue ih =>
    refine .member ⟨key, after, ?_, by simpa using hne, hvalue⟩ (ih h)
    rw [hdrop]
    exact hkey

theorem readMembers_of_membersRead (size : Nat) (h : MembersRead m t m' after) :
    readMembers size m t = .ok (m', after) := by
  induction h with
  | cut hdrop => exact readMembers_cut size _ hdrop
  | close hdrop => exact readMembers_close size _ hdrop
  | @member m m₁ m' t left after hmember _ ih =>
    obtain ⟨key, r, hstring, hkey, hvalue⟩ := hmember
    rw [readMembers_key size m hstring hkey, hvalue]
    exact ih

theorem oneAhead_memberRead (m m' : Members) :
    OneAhead fun t left => MemberRead m t m' left := by
  intro t left hleft hmember
  obtain ⟨key, after, hkey, hne, hvalue⟩ := hmember
  have hreaders := (oneAhead_dropWhile Members.isSeparator).comp
    ((oneAhead_string? key).comp ((oneAhead_dropWhile Members.isAssignment).comp
      (oneAhead_readValue m key m')))
  obtain ⟨front, hfront, hagain⟩ :=
    hreaders t left hleft ⟨_, rfl, after, hkey, _, rfl, hvalue⟩
  refine ⟨front, hfront, fun r hr => ?_⟩
  obtain ⟨_, rfl, rest, hkey, _, rfl, hvalue⟩ := hagain r hr
  exact ⟨key, rest, hkey, hne, hvalue⟩

/-- **Members that end at a brace are read alike, whatever stands behind it.** -/
theorem MembersRead.exists_body (h : MembersRead m t m' after) (hafter : after ≠ []) :
    ∃ body, t = body ++ Text.code '\x7d' :: after
      ∧ ∀ r, MembersRead m (body ++ Text.code '\x7d' :: r) m' r := by
  induction h with
  | cut => exact absurd rfl hafter
  | @close m t after hdrop =>
    obtain ⟨body, rfl, hbody⟩ := oneAhead_dropWhile Members.isSeparator t _ (by simp) hdrop
    exact ⟨body, rfl, fun r => .close (hbody (Text.code '\x7d' :: r) rfl)⟩
  | @member m m₁ m' t left after hmember _ ih =>
    obtain ⟨body, rfl, hbody⟩ := ih hafter
    obtain ⟨front, rfl, hfront⟩ := oneAhead_memberRead m m₁ t _ (by simp) hmember
    refine ⟨front ++ body, by simp, fun r => ?_⟩
    have hhead : (body ++ Text.code '\x7d' :: r).head?
        = (body ++ Text.code '\x7d' :: after).head? := by
      rw [List.head?_append, List.head?_append]
      rfl
    rw [List.append_assoc]
    exact .member (hfront _ hhead) (hbody r)

/-! ## Objects -/

/-- An object is read: from the next brace on its members, and then it is added. -/
def ObjectRead (c : Contents) (t : Text) (c' : Contents) (after : Text) : Prop :=
  ∃ m back, t.dropWhile (· ≠ Text.code '\x7b') = Text.code '\x7b' :: back
    ∧ MembersRead {} back m after ∧ c.add m = .ok c'

/-- So many objects are read one after another. -/
inductive ObjectsRead : Nat → Contents → Text → Contents → Text → Prop where
  | none {c : Contents} {t : Text} : ObjectsRead 0 c t c t
  | object {n : Nat} {c c₁ c' : Contents} {t left after : Text} : ObjectRead c t c₁ left →
      ObjectsRead n c₁ left c' after → ObjectsRead (n + 1) c t c' after

/-- The object behind a brace fails: its members do, or they cannot be added. -/
def ObjectFails (size : Nat) (c : Contents) (back : Text) (e : ReadError) : Prop :=
  readMembers size {} back >>= (fun p => c.add p.1) = .error e

/-- **An object that was read is read alike, whatever stands behind it.** -/
theorem ObjectRead.exists_front (h : ObjectRead c t c' after) (hafter : after ≠ []) :
    ∃ front, t = front ++ after ∧ ∀ r, ObjectRead c (front ++ r) c' r := by
  obtain ⟨m, back, hdrop, hmembers, hadd⟩ := h
  obtain ⟨body, rfl, hbody⟩ := hmembers.exists_body hafter
  obtain ⟨junk, rfl, hjunk⟩ :=
    oneAhead_dropWhile (· ≠ Text.code '\x7b') t _ (by simp) hdrop
  refine ⟨junk ++ Text.code '\x7b' :: (body ++ [Text.code '\x7d']), by simp, fun r => ?_⟩
  refine ⟨m, body ++ Text.code '\x7d' :: r, ?_, hbody r, hadd⟩
  have hbrace := hjunk (Text.code '\x7b' :: (body ++ Text.code '\x7d' :: r)) rfl
  rw [← hbrace]
  simp

/-- **Objects that were read are read alike, whatever stands behind them.** -/
theorem ObjectsRead.exists_front (h : ObjectsRead n c t c' after) (hafter : after ≠ []) :
    ∃ front, t = front ++ after ∧ ∀ r, ObjectsRead n c (front ++ r) c' r := by
  induction h with
  | none => exact ⟨[], rfl, fun r => .none⟩
  | object hobject _ ih =>
    obtain ⟨rest, rfl, hrest⟩ := ih hafter
    obtain ⟨front, rfl, hfront⟩ := hobject.exists_front (by simp [hafter])
    refine ⟨front ++ rest, by simp, fun r => ?_⟩
    rw [List.append_assoc]
    exact .object (hfront (rest ++ r)) (hrest r)

/-- The text up to the next brace has none. -/
theorem exists_of_dropWhile_brace
    (h : t.dropWhile (· ≠ Text.code '\x7b') = Text.code '\x7b' :: back) :
    ∃ junk, t = junk ++ Text.code '\x7b' :: back ∧ Text.code '\x7b' ∉ junk := by
  refine ⟨t.takeWhile (· ≠ Text.code '\x7b'), ?_, fun hmem => ?_⟩
  · rw [← h, List.takeWhile_append_dropWhile]
  · exact absurd (List.mem_takeWhile_imp hmem) (by simp)

theorem readObjects_of_objectsRead (size count : Nat) (h : ObjectsRead n c t c' after) :
    readObjects size c count t = readObjects size c' (count + n) after := by
  induction h generalizing count with
  | none => rfl
  | @object n _ _ _ _ _ _ hobject _ ih =>
    obtain ⟨m, back, hdrop, hmembers, hadd⟩ := hobject
    obtain ⟨junk, rfl, hjunk⟩ := exists_of_dropWhile_brace hdrop
    rw [readObjects_skip size _ count _ hjunk,
      readObjects_ok size count (readMembers_of_membersRead size hmembers) hadd,
      ih (count + 1), Nat.add_assoc, Nat.add_comm 1 n]

/-- What is found is a brace. -/
theorem eq_brace_of_dropWhile {b : UInt8} (h : t.dropWhile (· ≠ Text.code '\x7b') = b :: back) :
    b = Text.code '\x7b' := by
  have hhead := List.head?_dropWhile_not (· ≠ Text.code '\x7b') t
  rw [h, List.head?_cons] at hhead
  simpa using hhead

/-- If reading fails, objects were read up to one that fails. -/
theorem exists_objectFails (h : (readObjects size c count t).2 = .error e) :
    ∃ n c' left back, ObjectsRead n c t c' left
      ∧ left.dropWhile (· ≠ Text.code '\x7b') = Text.code '\x7b' :: back
      ∧ ObjectFails size c' back e := by
  fun_induction readObjects size c count t with
  | case1 => exact absurd h (by simp)
  | case2 c count t b rest hdrop e' hmembers =>
    obtain rfl := eq_brace_of_dropWhile hdrop
    obtain rfl := Except.error.inj h
    exact ⟨0, c, t, rest, .none, hdrop, by rw [ObjectFails, hmembers]; rfl⟩
  | case3 c count t b rest hdrop m after hmembers e' hadd =>
    obtain rfl := eq_brace_of_dropWhile hdrop
    obtain rfl := Except.error.inj h
    exact ⟨0, c, t, rest, .none, hdrop, by rw [ObjectFails, hmembers]; exact hadd⟩
  | case4 c count t b rest hdrop m after hmembers c' hadd ih =>
    obtain rfl := eq_brace_of_dropWhile hdrop
    obtain ⟨n, c₁, left, back, hread, hbrace, hfails⟩ := ih h
    have hobject : ObjectRead c t c' after :=
      ⟨m, rest, hdrop, membersRead_of_readMembers hmembers, hadd⟩
    exact ⟨n + 1, c₁, left, back, .object hobject hread, hbrace, hfails⟩

/-! ## Files -/

/-- Reading the text fails at the brace between `front` and `back`: from its beginning on, objects
are read up to that brace, and the object behind it fails. -/
def FailsAt (t front back : Text) (e : ReadError) : Prop :=
  t = front ++ Text.code '\x7b' :: back
    ∧ ∃ n c left, ObjectsRead n {} t c left
      ∧ left.dropWhile (· ≠ Text.code '\x7b') = Text.code '\x7b' :: back
      ∧ ObjectFails t.length c back e

/--
**An object that fails adds nothing.**

If reading a text fails, it fails at the brace of some object. The text that is cut off right before
that brace can be read, and says exactly what was read of the whole text: the same symbols, line
records, functions and types.
-/
theorem read_before_failure {t : Text} {e : ReadError} (h : (read t).2 = .error e) :
    (∃ front back, FailsAt t front back e)
      ∧ ∀ front back, FailsAt t front back e → ∃ n, read front = ((read t).1, .ok n) := by
  refine ⟨?_, fun front back hfails => ?_⟩
  · obtain ⟨n, c, left, back, hread, hdrop, hobject⟩ := exists_objectFails h
    have hleft : left ≠ [] := by
      intro heq
      rw [heq] at hdrop
      exact absurd hdrop (by simp)
    obtain ⟨before, hbefore, -⟩ := hread.exists_front hleft
    obtain ⟨junk, hjunk, -⟩ := exists_of_dropWhile_brace hdrop
    refine ⟨before ++ junk, back, ?_, n, c, left, hread, hdrop, hobject⟩
    rw [List.append_assoc, ← hjunk]
    exact hbefore
  · obtain ⟨ht, n, c, left, hread, hdrop, hobject⟩ := hfails
    obtain ⟨junk, rfl, hjunk⟩ := exists_of_dropWhile_brace hdrop
    obtain ⟨before, hbefore, hagain⟩ := hread.exists_front (by simp)
    have hsplit : front ++ Text.code '\x7b' :: back
        = before ++ junk ++ Text.code '\x7b' :: back := by
      rw [List.append_assoc, ← ht, ← hbefore]
    have hfront : front = before ++ junk := List.append_cancel_right hsplit
    -- the whole text and the one that is cut off go through the same objects
    have hwhole : (read t).1 = c := by
      rw [read, readObjects_of_objectsRead _ _ hread, readObjects_skip _ _ _ _ hjunk,
        readObjects_error _ _ hobject]
    have hcut := readObjects_of_objectsRead front.length 0 (hagain junk)
    rw [← hfront, Nat.zero_add, readObjects_end _ _ _ hjunk] at hcut
    exact ⟨n, by rw [hwhole, read, hcut]⟩

/-- A function without its end is no symbol either, and the type before it stays. -/
theorem read_before_failure_function :
    let t : Text := "[\x7b\"kind\":\"type\",\"name\":\"a\"\x7d,"
      ++ "\x7b\"kind\":\"function\",\"name\":\"\x7b\\\"\",\"addr\":16\x7d]"
    let e : ReadError := .noStop "\x7b\""
    (read t).2 = .error e ∧ (read t).1.symbols = #[] ∧ (read t).1.records.types = #[⟨"a", []⟩]
      ∧ ∃ front back n, FailsAt t front back e ∧ read front = ((read t).1, .ok n) := by
  intro t e
  have hfails : (read t).2 = .error e := by decide +kernel
  obtain ⟨⟨front, back, hat⟩, hcut⟩ := read_before_failure hfails
  obtain ⟨n, hread⟩ := hcut front back hat
  exact ⟨hfails, by decide +kernel, by decide +kernel, front, back, n, hat, hread⟩

end Disassembler.Debug
