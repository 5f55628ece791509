import TreeGrammar.Proofs.Requests

/-!
This module contains what holds in all sessions that requests can lead to, and that it makes no
difference to the answers whether derivatives are remembered.
-/

namespace TreeGrammar

namespace Session

/--
The session is what requests have made of a new one. None of them has interfered with what is
remembered of derivatives.
-/
inductive Reachable : Session → Prop where
  | create {types settings s} : create types settings = .ok s → Reachable s
  | perform {s c answer t} : Reachable s → c.isLawful → perform c s = .ok (answer, t) → Reachable t

/--
What comes of requests: the answers, and the session after the last one or why it ended before. What
is remembered of derivatives is left out.
-/
def outcome (commands : List Command) (s : Session) : List Answer × Except Halt Session :=
  ((run commands s).1, (run commands s).2.map forgetful)

variable {s t : Session} {types : Nat → Datatype} {settings : Settings} {c : Command}
variable {answer : Answer}

theorem create_eq : create types settings = if settings.limit < 2 then
      .error (.limitExceeded settings.limit)
    else .ok { schema := { graph := { settings }, definitions := { types } } } := by
  unfold create Schema.create Graph.create
  split
  . rfl
  . rfl

theorem Sound.of_create (h : create types settings = .ok s) : s.Sound := by
  rw [create_eq] at h
  split at h
  . cases h
  . cases h
    refine ⟨⟨?_, ?_, ?_, ?_, ?_⟩, ?_, ?_, ?_, ?_, ?_⟩
    . intro r target hr
      simp [Definitions.target?] at hr
    . exact .initial
    . exact Nat.succ_le_succ (Nat.le_of_not_lt ‹_›)
    . intro id b hb
      simp at hb
    . intro id x rest hrest
      simp at hrest
    . intro name id hid
      simp at hid
    . intro name m hm
      simp at hm
    . intro name results hresults
      simp at hresults
    . rintro gr ⟨⟩
    . intro name v hv
      simp at hv

theorem Reachable.sound (h : s.Reachable) : s.Sound := by
  induction h with
  | create h => exact .of_create h
  | perform _ hc hperform ih => exact ((perform_returns _ hc ih).ok _ _ hperform).2.1

theorem Reachable.run {commands : List Command} {answers : List Answer} (hs : s.Reachable)
    (hcommands : ∀ c ∈ commands, c.isLawful) (h : run commands s = (answers, .ok t)) :
    t.Reachable := by
  induction commands generalizing s answers with
  | nil =>
    cases h
    exact hs
  | cons c commands ih =>
    rw [List.forall_mem_cons] at hcommands
    unfold Session.run StateT.run at h
    split at h
    . cases h
    . next answer u hperform =>
      obtain ⟨rest, hrest⟩ : ∃ rest, Session.run commands u = (rest, .ok t) :=
        ⟨_, Prod.ext rfl (Prod.mk.inj h).2⟩
      exact ih (.perform hs hcommands.1 hperform) hcommands.2 hrest

theorem exists_of_any_toOption {ε α : Type} {result : Except ε α} {p : α → Bool}
    (h : result.toOption.any p) : ∃ a, result = .ok a ∧ p a := by
  cases result with
  | error => cases h
  | ok a => exact ⟨a, rfl, h⟩

/--
Whether the requests lead from a new session to one of which `p` holds.
-/
def leadsTo (types : Nat → Datatype) (commands : List Command) (p : Session → Bool) : Bool :=
  match create types {} with
  | .error _ => false
  | .ok s =>
    match (run commands s).2 with
    | .error _ => false
    | .ok t => p t

theorem Reachable.of_leadsTo (types : Nat → Datatype) (commands : List Command)
    (p : Session → Bool) (hcommands : ∀ c ∈ commands, c.isLawful) (h : leadsTo types commands p) :
    ∃ s, s.Reachable ∧ p s := by
  unfold leadsTo at h
  split at h
  . cases h
  . next s hcreate =>
    split at h
    . cases h
    . next t hrun =>
      exact ⟨t, (Reachable.create hcreate).run hcommands (Prod.ext rfl hrun), h⟩

def yields (c : Command) (s : Session) (p : Answer → Session → Bool) : Bool :=
  match perform c s with
  | .error _ => false
  | .ok (answer, t) => p answer t

theorem yields_iff {p : Answer → Session → Bool} :
    yields c s p ↔ ∃ answer t, perform c s = .ok (answer, t) ∧ p answer t := by
  unfold yields
  split
  . next hperform => simp [hperform]
  . next answer t hperform => simp [hperform]

def halt? (c : Command) (s : Session) : Option Halt :=
  match perform c s with
  | .error h => some h
  | .ok _ => none

theorem perform_of_halt? {h : Halt} (hhalt : halt? c s = some h) : perform c s = .error h := by
  unfold halt? at hhalt
  split at hhalt
  . next heq => rw [heq, Option.some.inj hhalt]
  . cases hhalt

theorem run_forgetful {commands : List Command} (hcommands : ∀ c ∈ commands, c.isNeutral)
    (hs : s.Sound) :
    run commands s.forgetful = ((run commands s).1, (run commands s).2.map forgetful) := by
  induction commands generalizing s with
  | nil => rfl
  | cons c commands ih =>
    rw [List.forall_mem_cons] at hcommands
    have hperform := perform_returns c (Command.isLawful_of_isNeutral hcommands.1) hs
    unfold run StateT.run
    rw [hperform.forgetful hcommands.1]
    cases hc : perform c s with
    | error h => rfl
    | ok p =>
      obtain ⟨answer, t⟩ := p
      have hrest := ih hcommands.2 (hperform.ok answer t hc).2.1
      dsimp only [Except.map, Prod.map, id]
      rw [hrest]
      rfl

theorem outcome_forgetful {commands : List Command} (hcommands : ∀ c ∈ commands, c.isNeutral)
    (hs : s.Sound) : outcome commands s.forgetful = outcome commands s := by
  unfold outcome
  rw [run_forgetful hcommands hs]
  cases (run commands s).2 <;> rfl

theorem create_forgetful (limit : Nat) (remembers : Bool) :
    (create types { limit, remembersDerivatives := remembers }).map forgetful =
      create types { limit, remembersDerivatives := false } := by
  rw [create_eq, create_eq]
  split
  . rfl
  . rfl

/--
Remembering derivatives makes no difference to what comes of any requests, unless they are about
what is remembered. Requests can speak of any expression that has come up: see `Session.isWritten`.
-/
theorem outcome_eq_of_remembers (types : Nat → Datatype) (limit : Nat) (commands : List Command)
    (hcommands : ∀ c ∈ commands, c.isNeutral) :
    (create types { limit, remembersDerivatives := true }).map (outcome commands) =
      (create types { limit, remembersDerivatives := false }).map (outcome commands) := by
  rw [← create_forgetful limit true]
  cases hcreate : create types { limit, remembersDerivatives := true } with
  | error f => rfl
  | ok s =>
    have hforgetful := outcome_forgetful hcommands (.of_create hcreate)
    exact congrArg Except.ok hforgetful.symm

/--
A derivative is taken twice by the same element, and a reference is defined between. A matcher and a
picker are made before that: the matcher comes to a state that cannot be asked whether content may end,
and the picker goes on with what it has found before.
-/
theorem outcome_eq_of_remembers_twice :
    let e : Term := .element .any .anyString
    let derive (name : Option String) : Command :=
      .derive (.variable "l") (.element [.variable "e"]) name
    let twice := [.bind "e" e, .bind "r" (.reference "r"),
      .bind "l" (.sequence (.variable "e") (.variable "r")),
      .createMatcher "m" (.variable "l"), .enterChild "m" ⟨"", "a"⟩ "c", .readChild "m" "c" true,
      .createPicker "p", .pick "p" (.attribute .any .epsilon) (some "a"), derive none,
      .define (.variable "r") (.optional (.variable "a")), derive (some "d"),
      .isAccepting "m", .pick "p" (.sequence (.variable "d") (.variable "a")) none, .size]
    (∀ c ∈ twice, c.isNeutral) ∧
      (create (fun _ => .string) { limit := 100, remembersDerivatives := true }).toOption.any
        (fun s => (run twice s).1.length = twice.length ∧ (run twice s).1.contains (.accepting true)) ∧
      (create (fun _ => .string) { limit := 100, remembersDerivatives := true }).map (outcome twice) =
        (create (fun _ => .string) { limit := 100, remembersDerivatives := false }).map
          (outcome twice) := by
  intro e derive twice
  have htwice : ∀ c ∈ twice, c.isNeutral := by
    simp [twice, derive, Command.isNeutral]
  exact ⟨htwice, by decide +kernel, outcome_eq_of_remembers _ 100 twice htwice⟩

end Session

end TreeGrammar
