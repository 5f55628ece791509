import TreeGrammar.Proofs.Leaves
import TreeGrammar.Proofs.StartTags

/-!
This module contains what a matcher reports of the datatype that a text belongs to. If the text fits, it
is one that comes first in what the matcher may read next and accepts the text, or none if there is no
such datatype; and wherever there is one, the text fits.
-/

namespace TreeGrammar

open StoreState

namespace Matcher

structure Notes (token : Token) (e : Form) (r : Option (Matcher × Option DeclaredType)) : Prop where
  marks : ∀ p ∈ r, e.Marks token none p.2
  goesOn : e.Suits token → ∃ p ∈ r, p.1.state ≠ .nullSet

variable {defs : Definitions} {g : Graph} {m : Matcher} {e : Form}

theorem read?_notes (token : Token) (hg : g.Sound defs) (hm : m.Within g.store)
    (h : g.store.Shows defs m.state e) :
    Graph.Returns defs g (m.read? defs token) (fun _ => True) fun r _ => Notes token e r := by
  have hreduced := h.isReduced hg.reduced
  unfold read?
  have hderivative : Graph.Returns defs g (Graph.derivative defs token m.state) (fun _ => True) _ :=
    Graph.Returns.mono (Graph.derivative_carries hg h) (fun _ _ => trivial) fun _ _ _ _ hd => hd.1
  refine Graph.Returns.bind hderivative ?_
  rintro d k hgk hk ⟨hrest, hmarks⟩
  split
  . next hnull =>
    have hunsuited : ¬ e.Suits token := fun hsuits =>
      (Form.derivative_eq_nullSet_iff hreduced).1 (hrest.eq_nullSet_iff.1 hnull) hsuits.startsWith
    refine .pure hk ⟨?_, fun hsuits => absurd hsuits hunsuited⟩
    split
    . rintro _ ⟨⟩
      exact hmarks
    . rintro _ ⟨⟩
  . next hne =>
    refine Graph.Returns.bind
      (advance_ne_nullSet hk (hm.of_le (Graph.store_le hgk)) hrest.mem hne) ?_
    intro m' l _ hl hm'
    refine .pure hl ⟨?_, fun _ => ⟨_, rfl, hm'⟩⟩
    rintro _ ⟨⟩
    exact hmarks

end Matcher

def Answer.matched : Answer → Option Nat
  | .readText _ matched => matched
  | _ => none

namespace Session

/--
The datatype comes first in the expression, so that a text that comes next can belong to it, and it
accepts the text.
-/
def Offers (s : Session) (id : ExprId) (literal : String) (scope : Scope) (type : DeclaredType) : Prop :=
  s.schema.graph.store.HasTextType s.schema.definitions id type ∧ type.datatype.accepts scope literal

/--
What the answer tells of the datatype of a text that the matcher `m` has been asked to read.
-/
structure Reports (s : Session) (name : String) (m : Matcher) (literal : String) (scope : Scope)
    (previous : Option Nat) (answer : Answer) (t : Session) : Prop where
  refused : answer.fits = false → answer.matched = previous ∧ t.matchers[name]? = some m
  offers : answer.fits = true → ∀ number, answer.matched = some number →
    ∃ type, s.Offers m.state literal scope type ∧ type.number = number
  none_iff : answer.fits = true →
    (answer.matched = none ↔ ∀ type, ¬ s.Offers m.state literal scope type)
  fits : (∃ type, s.Offers m.state literal scope type) →
    answer.fits = true ∧ ∃ m', t.matchers[name]? = some m' ∧ m'.state ≠ .nullSet

variable {s t : Session} {name literal : String} {scope : Scope} {previous : Option Nat} {m : Matcher}
variable {id : ExprId} {e : Form} {answer : Answer} {type : DeclaredType}

theorem suits_iff (h : s.Shows id e) :
    e.Suits (.text literal scope) ↔ ∃ type, s.Offers id literal scope type :=
  exists_congr fun _ => and_congr_left' h.mem_textTypes_iff

theorem reports_of_none (hnotes : Matcher.Notes (.text literal scope) e none)
    (hm : s.Shows m.state e) (hname : t.matchers[name]? = some m) :
    s.Reports name m literal scope previous (.readText false previous) t := by
  refine ⟨fun _ => ⟨rfl, hname⟩, nofun, nofun, fun hoffers => ?_⟩
  obtain ⟨_, hnone, _⟩ := hnotes.goesOn ((suits_iff hm).2 hoffers)
  cases hnone

theorem reports_of_some {m' : Matcher} {type? : Option DeclaredType}
    (hnotes : Matcher.Notes (.text literal scope) e (some (m', type?))) (hm : s.Shows m.state e)
    (hname : t.matchers[name]? = some m') :
    s.Reports name m literal scope previous (.readText true (type?.map (·.number))) t := by
  have hmarks := hnotes.marks _ rfl
  refine ⟨nofun, fun _ number hmatched => ?_, fun _ => ?_, fun hoffers => ⟨rfl, m', hname, ?_⟩⟩
  . obtain ⟨type, htype, rfl⟩ := Option.map_eq_some_iff.1 hmatched
    rcases hmarks.either with hnone | ⟨other, hother, hsuits, hsome⟩
    . cases htype.symm.trans hnone
    . cases htype.symm.trans hsome
      exact ⟨type, ⟨hm.mem_textTypes_iff.1 hother, hsuits⟩, rfl⟩
  . change type?.map _ = none ↔ _
    rw [Option.map_eq_none_iff, hmarks.eq_none_iff, suits_iff hm, not_exists]
  . obtain ⟨_, ⟨⟩, hne⟩ := hnotes.goesOn ((suits_iff hm).2 hoffers)
    exact hne

theorem reports_of_readText (hs : s.Arises) (hm : s.matchers[name]? = some m)
    (hcheck : s.schema.check m.state = .ok ())
    (hrun : perform (.readText name literal scope previous) s = .ok (answer, t)) :
    s.Reports name m literal scope previous answer t := by
  have hwithin := hs.sound.matchers name m hm
  have hshows := shows_of_check hs.sound hwithin.state hcheck
  have hnotes := Matcher.read?_notes (.text literal scope) hs.sound.graph hwithin hshows
  change readText name literal scope previous s = _ at hrun
  unfold readText at hrun
  rw [bind_of_ok (matcherNamed_apply hm)] at hrun
  obtain ⟨r, u, hr, hkeep⟩ := bind_eq_ok hrun
  have hreturns : Returns True s (onGraph fun defs => m.readText? defs literal scope) _ _ :=
    onGraph_returns hs.sound hnotes
  obtain ⟨-, -, hnotes, hextends, -⟩ := hreturns.ok r u hr
  cases r with
  | none =>
    cases hkeep
    refine reports_of_none hnotes hshows ?_
    rw [hextends]
    exact hm
  | some p =>
    obtain ⟨_, v, hput, hpure⟩ := bind_eq_ok hkeep
    cases hput
    cases hpure
    exact reports_of_some hnotes hshows Std.TreeMap.getElem?_insert_self

theorem readText_completes (hs : s.Arises) (hm : s.matchers[name]? = some m) (hchecks : s.Checks m) :
    s.Completes (perform (.readText name literal scope previous))
      (s.Reports name m literal scope previous) := by
  have hvetted := hchecks.isVetted (hs.sound.matchers name m hm)
  have hread : Returns True s (readText name literal scope previous) (Fault.Admissible True)
      (Advances name (fun m m? g => Matcher.Operated s.schema.definitions
        (.read (.text literal scope)) s.schema.graph.store g.store m m?) s) := by
    refine readText_returns hs.sound ?_ ?_
    . intro m₀ hm₀
      obtain rfl : m₀ = m := Option.some.inj (hm₀.symm.trans hm)
      exact Matcher.read?_operated (.text literal scope) hs.sound.graph hvetted
    . exact fun _ r g _ _ hP => (hP.vetted r rfl).within
  refine ⟨fun h hrun => ?_, exists_room (perform_uniform _ (by simp)) s, fun answer t hrun =>
    reports_of_readText hs hm hchecks.state hrun⟩
  obtain ⟨f, rfl⟩ : ∃ f, h = .fault f := by
    change readText name literal scope previous s = _ at hrun
    unfold readText at hrun
    rw [bind_of_ok (matcherNamed_apply hm)] at hrun
    rcases bind_eq_error hrun with honGraph | ⟨r, u, _, hkeep⟩
    . exact exists_fault_of_onGraph honGraph
    . cases r with
      | none => cases hkeep
      | some => cases hkeep
  obtain ⟨limit, rfl⟩ := (hread.error f hrun).exists_limit
  exact ⟨limit, rfl⟩

/--
Whenever a matcher at a checked expression reads a text, the datatype that is reported is one that
comes first in the expression and accepts the text, and none is reported exactly if there is no such
datatype. If there is one, something is left of the expression after the text, and the text fits. If
the text does not fit, nothing changes. There is no fault but the limit if the contents of the
declarations that the matcher follows are checked as well.
-/
theorem readText_reports (hs : s.Arises) (hm : s.matchers[name]? = some m)
    (hcheck : s.schema.check m.state = .ok ()) (literal : String) (scope : Scope)
    (previous : Option Nat) :
    s.Completes (onGraph fun defs => Graph.derivative defs (.text literal scope) m.state)
        (fun d _ => (∃ type, s.Offers m.state literal scope type) → d.rest ≠ .nullSet) ∧
      (∀ answer t, perform (.readText name literal scope previous) s = .ok (answer, t) →
        s.Reports name m literal scope previous answer t) ∧
      (s.Checks m → s.Completes (perform (.readText name literal scope previous))
        (s.Reports name m literal scope previous)) := by
  refine ⟨?_, fun answer t => reports_of_readText hs hm hcheck, readText_completes hs hm⟩
  have hshows := shows_of_check hs.sound (hs.sound.matchers name m hm).state hcheck
  have hreduced := Store.Shows.isReduced hshows hs.sound.graph.reduced
  refine (derivative_completes hs.sound hshows).imp ?_
  rintro d t - ⟨-, -, hrest, -⟩ hoffers
  rw [Ne, Store.Shows.eq_nullSet_iff hrest]
  exact (Form.derivative_ne_nullSet_iff hreduced).2 ((suits_iff hshows).2 hoffers).startsWith

/--
One of two datatypes comes first behind a reference, after a child element that may be left out. One
text belongs to it, and another one to neither of the two.
-/
theorem readText_reports_reference :
    ∃ s m a t b u d v, s.Arises ∧ s.matchers["m"]? = some m ∧ s.schema.check m.state = .ok () ∧
      s.Checks m ∧
      perform (.readText "m" "off" [] none) s = .ok (a, t) ∧ s.Reports "m" m "off" [] none a t ∧
      a.fits = true ∧ a.matched = some 1 ∧ (∃ type, s.Offers m.state "off" [] type) ∧
      onGraph (fun defs => Graph.derivative defs (.text "off" []) m.state) s = .ok (d, v) ∧
      d.rest ≠ .nullSet ∧
      s.Completes (perform (.readText "m" "up" [] (some 0))) (s.Reports "m" m "up" [] (some 0)) ∧
      perform (.readText "m" "up" [] (some 0)) s = .ok (b, u) ∧ b.fits = false ∧
      b.matched = some 0 ∧ u.matchers["m"]? = some m := by
  let off : Command := .readText "m" "off" [] none
  let up : Command := .readText "m" "up" [] (some 0)
  obtain ⟨s, hs, hp⟩ := Reachable.of_leadsTo (fun number => .token (if number = 0 then "on" else "off"))
    [.bind "x" (.element .any (.typedString 0)), .bind "r" (.reference "r"),
      .define (.variable "r") (.sequence (.optional (.variable "x")) (.typedString 1)),
      .createMatcher "m" (.choice (.typedString 0) (.variable "r"))]
    (fun s => s.matchers["m"]?.any fun m =>
      s.schema.check m.state = .ok () && m.slots.isEmpty &&
        yields off s (fun a _ => a.fits && a.matched = some 1) &&
        (onGraph (fun defs => Graph.derivative defs (.text "off" []) m.state) s).toOption.any
          (fun _ => true) &&
        yields up s fun b _ => !b.fits)
    (by simp [Command.isLawful]) (by decide +kernel)
  obtain ⟨m, hm, hp⟩ := (Option.any_eq_true _ _).1 hp
  simp only [Bool.and_eq_true, decide_eq_true_eq, List.isEmpty_iff, yields_iff] at hp
  obtain ⟨⟨⟨⟨hcheck, hslots⟩, a, t, hoff, ha, hmatched⟩, hderivative⟩, b, u, hup, hb⟩ := hp
  obtain ⟨⟨d, v⟩, hd, -⟩ := exists_of_any_toOption hderivative
  have hb : b.fits = false := by simpa using hb
  have hchecks : s.Checks m := ⟨hcheck, by simp [hslots]⟩
  obtain ⟨hresidual, hreports, _⟩ := readText_reports hs.arises hm hcheck "off" [] none
  obtain ⟨_, _, hcompletes⟩ := readText_reports hs.arises hm hcheck "up" [] (some 0)
  have hreport := hreports a t hoff
  obtain ⟨type, hoffers, _⟩ := hreport.offers ha 1 hmatched
  have hcompletes := hcompletes hchecks
  obtain ⟨hkept, hname⟩ := (hcompletes.ok b u hup).refused hb
  exact ⟨s, m, a, t, b, u, d, v, hs.arises, hm, hcheck, hchecks, hoff, hreport, ha, hmatched,
    ⟨type, hoffers⟩, hd, hresidual.ok d v hd ⟨type, hoffers⟩, hcompletes, hup, hb, hkept, hname⟩

/--
A start tag fits two declarations, and at its end nothing but one text of a datatype is left of
their choice. In what is left of the second declaration a reference still leads back to itself, so
that the text, although the datatype accepts it, cannot be read.
-/
theorem readText_fails_recursion :
    ∃ s m type, s.Arises ∧ s.matchers["m"]? = some m ∧ s.schema.check m.state = .ok () ∧
      s.Offers m.state "on" [] type ∧
      perform (.readText "m" "on" [] none) s = .error (.fault (.unguardedReference "q")) ∧
      ∃ slot ∈ m.slots, s.schema.check slot.content ≠ .ok () := by
  obtain ⟨s, hs, hp⟩ := Reachable.of_leadsTo (fun _ => .token "on")
    [.bind "q" (.reference "q"), .bind "y" (.typedString 0),
      .bind "c" (.choice (.variable "y") (.variable "q")),
      .define (.variable "q")
        (.choice (.variable "y") (.interleave (.attribute .any .anyString) (.variable "c"))),
      .createMatcher "p" (.choice (.element .any (.variable "q")) (.element .any (.variable "c"))),
      .enterChild "p" ⟨"", "a"⟩ "m", .endAttributes "m"]
    (fun s => s.matchers["m"]?.any fun m =>
      s.schema.check m.state = .ok () && s.schema.graph.store.node m.state = .typedString 0 &&
        (s.schema.definitions.type 0).datatype.accepts [] "on" &&
        halt? (.readText "m" "on" [] none) s = some (.fault (.unguardedReference "q")) &&
        m.slots.any fun slot => s.schema.check slot.content ≠ .ok ())
    (by simp [Command.isLawful]) (by decide +kernel)
  obtain ⟨m, hm, hp⟩ := (Option.any_eq_true _ _).1 hp
  simp only [Bool.and_eq_true, decide_eq_true_eq, List.any_eq_true] at hp
  obtain ⟨⟨⟨⟨hcheck, hnode⟩, haccepts⟩, hhalt⟩, hslot⟩ := hp
  have hoffers : s.Offers m.state "on" [] (s.schema.definitions.type 0) :=
    ⟨⟨m.state, 0, .refl, hnode, rfl⟩, haccepts⟩
  exact ⟨s, m, _, hs.arises, hm, hcheck, hoffers, perform_of_halt? hhalt, hslot⟩

end Session

end TreeGrammar
