import Disassembler.Session

/-!
# The last load to begin wins

Loads may overlap in any way: many may have begun before one finishes, they may finish in any order,
and they may be cancelled at any time. What a session knows of that is the ticket of the one load in
flight. That is enough, since a load which begins takes the place of the one before it, and a load
finds its ticket in its place exactly if nothing disturbed it. So results are published in the order
in which their loads began, however late the others finish.
-/

namespace Disassembler.Session

/-! ## Histories -/

/-- What can happen to a session. A load is known by its ticket, the number of loads that began
before it. -/
inductive Event where
  | start
  | cancel
  | finish (ticket : Nat) (result : Except LoadError Loaded)

/-- The session after something happened to it. -/
def after (s : Session) : Event → Session
  | .start => s.start.1
  | .cancel => s.cancel
  | .finish ticket result => (s.finish ticket result).1

/-- The session after a history. -/
def afterAll (s : Session) (events : List Event) : Session := events.foldl after s

/-- The number of loads that begin in a history. -/
def starts (events : List Event) : Nat :=
  events.countP fun
    | .start => true
    | .cancel | .finish .. => false

/-- **A load was not disturbed**: it has begun, and since then no other load began, nothing was
cancelled, and it has not finished itself. Others may have finished. -/
def Undisturbed (ticket : Nat) (past : List Event) : Prop :=
  ∃ before since, past = before ++ .start :: since ∧ starts before = ticket
    ∧ ∀ e ∈ since, e ≠ .start ∧ e ≠ .cancel ∧ ∀ r, e ≠ .finish ticket r

/-- What is published when something happens to a session: the result of a load that finishes
without an error, with the ticket of the load. -/
def publication (s : Session) : Event → Option (Nat × Loaded)
  | .finish ticket (.ok l) => if (s.finish ticket (.ok l)).2 = none then some (ticket, l) else none
  | .finish _ (.error _) | .start | .cancel => none

/-- What is published in the course of a history, in order. -/
def published (s : Session) : List Event → List (Nat × Loaded)
  | [] => []
  | e :: rest => (s.publication e).toList ++ published (s.after e) rest

/-- Sessions are alike if the same was loaded; other loads may be under way. -/
structure Alike (s s' : Session) : Prop where
  config : s'.config = s.config
  current : s'.current = s.current
  generation : s'.generation = s.generation

variable {s s' : Session} {past events : List Event} {pub : List (Nat × Loaded)} {e : Event}
variable {t u : Nat} {r : Except LoadError Loaded} {l : Loaded}

/-! ## Undisturbed loads -/

theorem starts_concat_of_ne (he : e ≠ .start) : starts (past ++ [e]) = starts past := by
  cases e with
  | start => exact absurd rfl he
  | cancel => simp [starts]
  | finish t r => simp [starts]

/-- The last of some events is what a split of them ends with. -/
theorem split_concat {x : Event} {before since : List Event}
    (h : past ++ [e] = before ++ x :: since) :
    (before = past ∧ x = e ∧ since = [])
      ∨ ∃ since', since = since' ++ [e] ∧ past = before ++ x :: since' := by
  rcases List.eq_nil_or_concat since with rfl | ⟨since', y, rfl⟩
  · obtain ⟨hpast, hlast⟩ := List.append_inj' h rfl
    exact Or.inl ⟨hpast.symm, (List.singleton_inj.mp hlast).symm, rfl⟩
  · have hsplit : past ++ [e] = (before ++ x :: since') ++ [y] := by simpa using h
    obtain ⟨hpast, hlast⟩ := List.append_inj' hsplit rfl
    obtain rfl := List.singleton_inj.mp hlast
    exact Or.inr ⟨since', by simp, hpast⟩

/-- A load that has just begun is undisturbed, and no other one is. -/
theorem undisturbed_concat_start : Undisturbed t (past ++ [.start]) ↔ t = starts past := by
  constructor
  · rintro ⟨before, since, hsplit, rfl, hsince⟩
    rcases split_concat hsplit with ⟨rfl, -, -⟩ | ⟨since', rfl, -⟩
    · rfl
    · exact absurd rfl (hsince .start (by simp)).1
  · rintro rfl
    exact ⟨past, [], rfl, rfl, fun e he => absurd he List.not_mem_nil⟩

theorem undisturbed_concat_of_ne (he : e ≠ .start) :
    Undisturbed t (past ++ [e]) ↔ Undisturbed t past ∧ e ≠ .cancel ∧ ∀ r, e ≠ .finish t r := by
  constructor
  · rintro ⟨before, since, hsplit, hstarts, hsince⟩
    rcases split_concat hsplit with ⟨-, rfl, -⟩ | ⟨since', rfl, rfl⟩
    · exact absurd rfl he
    · refine ⟨⟨before, since', rfl, hstarts, fun x hx => ?_⟩, (hsince e (by simp)).2⟩
      exact hsince x (List.mem_append_left _ hx)
  · rintro ⟨⟨before, since, rfl, hstarts, hsince⟩, hcancel, hfinish⟩
    refine ⟨before, since ++ [e], by simp, hstarts, fun x hx => ?_⟩
    rcases List.mem_append.mp hx with hx | hx
    · exact hsince x hx
    · obtain rfl := List.mem_singleton.mp hx
      exact ⟨he, hcancel, hfinish⟩

/-! ## What a session knows -/

theorem isLive_iff : s.isLive t = true ↔ s.inFlight = some { ticket := t } := beq_iff_eq

theorem isLive_start : s.start.1.isLive t = true ↔ t = s.tickets := by
  rw [isLive_iff]
  simp [start, eq_comm]

theorem isLive_cancel : s.cancel.isLive t = false := by
  rw [← Bool.not_eq_true, isLive_iff]
  simp [cancel]

/-- A load that finishes is not live any more, and another one is if it was before. -/
theorem isLive_finish : (s.finish t r).1.isLive u = true ↔ s.isLive u = true ∧ t ≠ u := by
  cases r with
  | error e =>
    simp only [finish, isLive_iff, Option.filter_eq_some_iff, decide_eq_true_eq]
    exact and_congr_right fun _ => ne_comm
  | ok l =>
    by_cases hlive : s.isLive t = true
    · -- the one that is live is the one that finishes
      rw [finish, if_pos hlive]
      rw [isLive_iff] at hlive
      simp [isLive_iff, publish, hlive]
    · rw [finish, if_neg hlive]
      exact ⟨fun h => ⟨h, fun htu => hlive (htu ▸ h)⟩, fun h => h.1⟩

/-- **A load publishes its result exactly if it has one and is live.** -/
theorem finish_eq_none_iff :
    (s.finish t r).2 = none ↔ (∃ l, r = .ok l) ∧ s.isLive t = true := by
  cases r with
  | error e => simp [finish]
  | ok l =>
    rw [finish]
    split
    · simp [*]
    · simp [*]

theorem finish_of_isLive (h : s.isLive t = true) : s.finish t (.ok l) = (s.publish l, none) := by
  rw [finish, if_pos h]

/-- A load that fails leaves what was loaded before it. -/
theorem alike_finish (h : (s.finish t r).2 ≠ none) : s.Alike (s.finish t r).1 := by
  cases r with
  | error e => exact ⟨rfl, rfl, rfl⟩
  | ok l =>
    rw [finish] at h ⊢
    split
    · rename_i hlive
      rw [if_pos hlive] at h
      exact absurd rfl h
    · exact ⟨rfl, rfl, rfl⟩

theorem alike_of_publication (h : s.publication e = none) : s.Alike (s.after e) := by
  cases e with
  | start => exact ⟨rfl, rfl, rfl⟩
  | cancel => exact ⟨rfl, rfl, rfl⟩
  | finish t r =>
    refine alike_finish fun hnone => ?_
    obtain ⟨⟨l, rfl⟩, -⟩ := finish_eq_none_iff.mp hnone
    rw [publication, if_pos hnone] at h
    exact absurd h (by simp)

theorem publication_eq_some {p : Nat × Loaded} (h : s.publication e = some p) :
    e = .finish p.1 (.ok p.2) ∧ s.isLive p.1 = true := by
  cases e with
  | start => exact absurd h (by simp [publication])
  | cancel => exact absurd h (by simp [publication])
  | finish t r =>
    cases r with
    | error e => exact absurd h (by simp [publication])
    | ok l =>
      rw [publication] at h
      split at h
      · rename_i hnone
        obtain rfl := Option.some.inj h
        exact ⟨rfl, (finish_eq_none_iff.mp hnone).2⟩
      · exact absurd h (by simp)

/-! ## The invariant -/

/-- **The invariant.** A session remembers of its past which load is live, and of what was published
the last result and the number of all of them. -/
structure Remembers (past : List Event) (pub : List (Nat × Loaded)) (s : Session) : Prop where
  tickets : s.tickets = starts past
  live : ∀ t, s.isLive t = true ↔ Undisturbed t past
  /-- The load in flight has begun. -/
  begun : ∀ f, s.inFlight = some f → f.ticket < s.tickets
  /-- What is in flight began after all that was published. -/
  later : ∀ p ∈ pub, p.1 < s.tickets ∧ ∀ f, s.inFlight = some f → p.1 < f.ticket
  ordered : pub.Pairwise fun p q => p.1 < q.1
  generation : s.generation = pub.length
  current : s.current = pub.getLast?.map fun p => { p.2 with generation := pub.length }

theorem remembers_new (config : Config) : Remembers [] [] { config } where
  tickets := rfl
  live := by
    intro t
    refine ⟨fun h => absurd (isLive_iff.mp h) (by simp), ?_⟩
    rintro ⟨before, since, h, -⟩
    exact absurd h (by simp)
  begun := by simp
  later := by simp
  ordered := List.Pairwise.nil
  generation := rfl
  current := rfl

theorem Remembers.start (h : Remembers past pub s) :
    Remembers (past ++ [.start]) pub (s.after .start) where
  tickets := by
    show s.tickets + 1 = starts (past ++ [.start])
    rw [h.tickets]
    simp [starts]
  live t := by
    rw [undisturbed_concat_start, ← h.tickets]
    exact isLive_start
  begun f hf := by
    obtain rfl := Option.some.inj hf
    exact Nat.lt_succ_self _
  later p hp := by
    have hlt := (h.later p hp).1
    refine ⟨Nat.lt_succ_of_lt hlt, fun f hf => ?_⟩
    obtain rfl := Option.some.inj hf
    exact hlt
  ordered := h.ordered
  generation := h.generation
  current := h.current

theorem Remembers.cancel (h : Remembers past pub s) :
    Remembers (past ++ [.cancel]) pub (s.after .cancel) where
  tickets := by
    rw [starts_concat_of_ne (by simp)]
    exact h.tickets
  live t := by
    rw [undisturbed_concat_of_ne (by simp)]
    show s.cancel.isLive t = true ↔ _
    rw [isLive_cancel]
    simp
  begun f hf := by
    obtain ⟨g, hg, rfl⟩ := Option.map_eq_some_iff.mp hf
    exact h.begun g hg
  later p hp := by
    obtain ⟨hlt, hflight⟩ := h.later p hp
    refine ⟨hlt, fun f hf => ?_⟩
    obtain ⟨g, hg, rfl⟩ := Option.map_eq_some_iff.mp hf
    exact hflight g hg
  ordered := h.ordered
  generation := h.generation
  current := h.current

/-- What is in flight after a load has finished was in flight before. -/
theorem inFlight_finish {f : InFlight} (h : (s.finish t r).1.inFlight = some f) :
    s.inFlight = some f := by
  cases r with
  | error e => exact (Option.filter_eq_some_iff.mp h).1
  | ok l =>
    rw [finish] at h
    split at h
    · exact absurd h (by simp [publish])
    · exact h

theorem tickets_finish (s : Session) (t : Nat) (r : Except LoadError Loaded) :
    (s.finish t r).1.tickets = s.tickets := by
  cases r with
  | error e => rfl
  | ok l =>
    rw [finish]
    split
    · rfl
    · rfl

theorem Remembers.finish (h : Remembers past pub s) (t : Nat) (r : Except LoadError Loaded) :
    Remembers (past ++ [.finish t r]) (pub ++ (s.publication (.finish t r)).toList)
      (s.after (.finish t r)) := by
  have htickets : (s.after (.finish t r)).tickets = starts (past ++ [.finish t r]) := by
    rw [starts_concat_of_ne (by simp), ← h.tickets]
    exact tickets_finish s t r
  have hlive : ∀ u, (s.after (.finish t r)).isLive u = true
      ↔ Undisturbed u (past ++ [.finish t r]) := by
    intro u
    rw [undisturbed_concat_of_ne (by simp), ← h.live]
    refine isLive_finish.trans (and_congr_right fun _ => ?_)
    simp
  have hbegun : ∀ f, (s.after (.finish t r)).inFlight = some f →
      f.ticket < (s.after (.finish t r)).tickets := by
    intro f hf
    exact (tickets_finish s t r).symm ▸ h.begun f (inFlight_finish hf)
  rcases hpub : s.publication (.finish t r) with _ | p
  · -- nothing is published, and what was loaded stays
    have halike := alike_of_publication hpub
    rw [Option.toList_none, List.append_nil]
    refine ⟨htickets, hlive, hbegun, fun p hp => ?_, h.ordered,
      halike.generation.trans h.generation, halike.current.trans h.current⟩
    obtain ⟨hlt, hflight⟩ := h.later p hp
    exact ⟨(tickets_finish s t r).symm ▸ hlt, fun f hf => hflight f (inFlight_finish hf)⟩
  · -- the load in flight publishes, so it began after all that did before
    obtain ⟨hfinish, hpublish⟩ := publication_eq_some hpub
    obtain ⟨rfl, rfl⟩ := Event.finish.inj hfinish
    have hafter : s.after (.finish p.1 (.ok p.2)) = s.publish p.2 :=
      congrArg Prod.fst (finish_of_isLive hpublish)
    have hflight := isLive_iff.mp hpublish
    refine ⟨htickets, hlive, hbegun, fun q hq => ?_, ?_, ?_, ?_⟩
    · rw [hafter]
      refine ⟨?_, fun f hf => absurd hf (by simp [publish])⟩
      rcases List.mem_append.mp hq with hq | hq
      · exact (h.later q hq).1
      · obtain rfl := List.mem_singleton.mp hq
        exact h.begun _ hflight
    · refine List.pairwise_append.mpr ⟨h.ordered, List.pairwise_singleton _ _, ?_⟩
      intro q hq p' hp'
      obtain rfl := List.mem_singleton.mp hp'
      exact (h.later q hq).2 _ hflight
    · rw [hafter]
      simp [publish, h.generation]
    · rw [hafter]
      simp [publish, h.generation]

theorem Remembers.after (h : Remembers past pub s) (e : Event) :
    Remembers (past ++ [e]) (pub ++ (s.publication e).toList) (s.after e) := by
  cases e with
  | start => simpa [publication] using h.start
  | cancel => simpa [publication] using h.cancel
  | finish t r => exact h.finish t r

/-- **A session remembers every history.** -/
theorem Remembers.afterAll (h : Remembers past pub s) (events : List Event) :
    Remembers (past ++ events) (pub ++ s.published events) (s.afterAll events) := by
  induction events generalizing past pub s with
  | nil => simpa [published, Session.afterAll] using h
  | cons e rest ih =>
    have hrest := ih (h.after e)
    rwa [List.append_assoc, List.append_assoc] at hrest

/-! ## Any interleaving -/

/--
**The last load to begin wins.**

Take a new session, and anything that happens to it. A load that finishes then publishes exactly if
it has a result and was not disturbed: since it began, no other load began and nothing was cancelled.
Only then is something else loaded, and what is loaded carries the number of results published so
far. So the results of a session are numbered from one on without gaps, and those published later
are of loads that began later.
-/
theorem last_begun_wins (config : Config) (past : List Event) :
    let s := afterAll { config } past
    let pub := published { config } past
    (∀ t r, (s.finish t r).2 = none ↔ (∃ l, r = .ok l) ∧ Undisturbed t past)
      ∧ (∀ e, (∀ t l, e = .finish t (.ok l) → ¬ Undisturbed t past) →
        (s.after e).current = s.current ∧ (s.after e).generation = s.generation)
      ∧ (∀ t l, Undisturbed t past → (s.after (.finish t (.ok l))).current
        = some { l with generation := pub.length + 1 })
      ∧ s.current = pub.getLast?.map (fun p => { p.2 with generation := pub.length })
      ∧ s.generation = pub.length
      ∧ pub.Pairwise (fun p q => p.1 < q.1) := by
  intro s pub
  have h : Remembers past pub s := (remembers_new config).afterAll past
  refine ⟨fun t r => ?_, fun e he => ?_, fun t l ht => ?_, h.current, h.generation, h.ordered⟩
  · rw [finish_eq_none_iff, h.live]
  · rcases hpub : s.publication e with _ | p
    · have halike := alike_of_publication hpub
      exact ⟨halike.current, halike.generation⟩
    · obtain ⟨rfl, hlive⟩ := publication_eq_some hpub
      exact absurd ((h.live p.1).mp hlive) (he p.1 p.2 rfl)
  · have hfinish := finish_of_isLive (l := l) ((h.live t).mpr ht)
    show (s.finish t (.ok l)).1.current = _
    rw [hfinish, publish, h.generation]

/-- Of two loads that overlap the second one finishes first. The first one comes too late then, and
what the second one has published stays. -/
theorem last_begun_wins_overtaken :
    let first : Loaded := { (default : Loaded) with name := "first" }
    let second : Loaded := { (default : Loaded) with name := "second" }
    let past : List Event := [.start, .start, .finish 1 (.ok second)]
    let s := afterAll {} past
    Undisturbed 1 [.start, .start] ∧ s.current = some { second with generation := 1 }
      ∧ (s.finish 0 (.ok first)).2 = some .superseded ∧ ¬ Undisturbed 0 past
      ∧ (s.after (.finish 0 (.ok first))).current = s.current := by
  intro first second past s
  obtain ⟨hwins, -, hcurrent, -⟩ := last_begun_wins {} [.start, .start]
  obtain ⟨hlate, hkept, -⟩ := last_begun_wins {} past
  have hsecond : Undisturbed 1 [.start, .start] := ((hwins 1 (.ok second)).mp rfl).2
  have hfirst : ¬ Undisturbed 0 past := by
    intro h
    exact absurd ((hlate 0 (.ok first)).mpr ⟨⟨first, rfl⟩, h⟩) (by decide)
  refine ⟨hsecond, hcurrent 1 second hsecond, rfl, hfirst, (hkept _ fun t l he => ?_).1⟩
  obtain ⟨rfl, -⟩ := Event.finish.inj he
  exact hfirst

/-! ## Loads -/

variable {ρ : Type} {i : Option (Interruption ρ)}

theorem exists_afterAll_interrupt (hi : ∀ j, i = some j → ∃ es, ∀ s, (j.act s).1 = s.afterAll es)
    (s : Session) (m : Moment) : ∃ es, (s.interrupt i m).1 = s.afterAll es := by
  cases i with
  | none => exact ⟨[], rfl⟩
  | some j =>
    obtain ⟨es, hes⟩ := hi j rfl
    rw [interrupt]
    split
    · exact ⟨es, hes s⟩
    · exact ⟨[], rfl⟩

/-- The session when the analysis of a load begins. -/
def analysing (s : Session) (i : Option (Interruption ρ)) : Session :=
  (s.start.1.interrupt i .analysis).1

/-- What a load finishes with. -/
def result (s : Session) (i : Option (Interruption ρ)) (image : Image) (records : Debug.Records)
    (name : Text) : Except LoadError Loaded :=
  Loaded.build { cancelled := fun _ => !(s.analysing i).isLive s.tickets } s.config image
    (Debug.Index.build records (some image)) name

/-- The session when a load comes to finish. -/
def ready (s : Session) (i : Option (Interruption ρ)) : Except LoadError Loaded → Session
  | .ok _ => ((s.analysing i).interrupt i .publication).1
  | .error _ => s.analysing i

/-- A load begins, and finishes with its result in the session that it then finds. -/
theorem load_eq (s : Session) (image : Image) (records : Debug.Records) (name : Text) :
    let outcome : Outcome ρ := s.load i (some image) records name
    let r := s.result i image records name
    outcome.session = ((s.ready i r).finish s.tickets r).1
      ∧ outcome.error = ((s.ready i r).finish s.tickets r).2 := by
  intro outcome r
  have hresult : s.result i image records name = r := rfl
  simp only [outcome, load]
  rw [result, analysing] at hresult
  rcases r with e | l
  · simp only [start] at hresult ⊢
    rw [hresult]
    exact ⟨rfl, rfl⟩
  · simp only [start] at hresult ⊢
    rw [hresult]
    exact ⟨rfl, rfl⟩

/-- **A load is such a history**, whatever happens meanwhile: it begins, and it finishes with its
own ticket. -/
theorem exists_afterAll_load (hi : ∀ j, i = some j → ∃ es, ∀ s, (j.act s).1 = s.afterAll es)
    (s : Session) (image : Image) (records : Debug.Records) (name : Text) :
    let outcome := s.load i (some image) records name
    ∃ es r, outcome.session = s.afterAll (.start :: es ++ [.finish s.tickets r])
      ∧ outcome.error = ((s.afterAll (.start :: es)).finish s.tickets r).2 := by
  intro outcome
  obtain ⟨hsession, herror⟩ := load_eq s image records name
  generalize s.result i image records name = r at hsession herror
  have hready : ∃ es, s.ready i r = s.afterAll (.start :: es) := by
    obtain ⟨es, hes⟩ := exists_afterAll_interrupt hi s.start.1 .analysis
    obtain ⟨es', hes'⟩ := exists_afterAll_interrupt hi (s.analysing i) .publication
    cases r with
    | error e => exact ⟨es, hes⟩
    | ok l =>
      refine ⟨es ++ es', hes'.trans ?_⟩
      rw [analysing, hes]
      simp [afterAll, after]
  obtain ⟨es, hes⟩ := hready
  refine ⟨es, r, hsession.trans ?_, herror.trans ?_⟩
  · rw [hes]
    simp [afterAll, after]
  · rw [hes]

end Disassembler.Session
