import TreeGrammar.Proofs.Calculation
import TreeGrammar.Proofs.Children

/-!
This module contains that all ways to ask what may come next agree: the declarations of elements that
can come first in an expression are the ones after which something is left of it, the ones that a
matcher for a child follows, and the ones that are named to readers.
-/

namespace TreeGrammar

open Relation

theorem nodup_eraseDups {α : Type} [BEq α] [LawfulBEq α] (l : List α) : l.eraseDups.Nodup := by
  match l with
  | [] => exact .nil
  | a :: l =>
    rw [List.eraseDups_cons, List.nodup_cons]
    refine ⟨fun hmem => ?_, nodup_eraseDups _⟩
    simpa using List.mem_eraseDups.1 hmem
termination_by l.length
decreasing_by exact Nat.lt_succ_of_le (List.length_filter_le _ l)

/--
The text names what names the declarations allow: nothing if there are none, and otherwise the first
four classes of names, and how many there are besides.
-/
structure Enumerates (text : String) (heads : List Head) : Prop where
  eq_empty_iff : text = "" ↔ heads = []
  eq_of_ne_nil : heads ≠ [] →
    let classes := (heads.map (·.names)).eraseDups
    let shown := " ".intercalate ((classes.take 4).map (·.describe))
    text = "Element " ++ shown ++ if classes.length ≤ 4 then "" else
      " .. or one of " ++ toString (classes.length - 4) ++ " more"

theorem enumerates_describe (heads : List Head) : Enumerates (Form.describe heads) heads := by
  have hnone : (heads.map (·.names)).eraseDups.isEmpty ↔ heads = [] := by
    cases heads <;> simp [List.eraseDups_cons]
  unfold Form.describe
  constructor
  . dsimp only
    split
    . next h => exact iff_of_true rfl (hnone.1 h)
    . next h =>
      refine iff_of_false (fun htext => ?_) (mt hnone.2 h)
      have hlength := congrArg String.length htext
      simp at hlength
  . intro hne
    dsimp only
    rw [if_neg (mt hnone.1 hne)]
    simp only [Graph.describeHeads.most, Nat.sub_eq_zero_iff_le]

namespace Store

variable {s : Store} {defs : Definitions} {id : ExprId} {e : Form}

theorem Shows.nodup_heads (h : s.Shows defs id e) : (e.heads.eraseDups.map (·.id)).Nodup := by
  refine (nodup_eraseDups e.heads).map_on fun a ha b hb hab => ?_
  have haShows := h.head (List.mem_eraseDups.1 ha)
  have hbShows := h.head (List.mem_eraseDups.1 hb)
  rw [hab] at haShows
  exact Form.element.inj (haShows.unique hbShows)

end Store

theorem Form.Matcher.ofHeads?_eq_none_iff {contents : ExprId → Form} {heads : List Head} :
    (ofHeads? contents heads).value = none ↔ heads = [] := by
  match heads with
  | [] => simp [ofHeads?]
  | [_] => simp [ofHeads?]
  | _ :: _ :: _ => simp [ofHeads?]

namespace Matcher

open TreeGrammar.Graph

variable {defs : Definitions} {g : Graph} {m : Matcher} {e : Form} {contents : ExprId → Form}

/--
The child follows the declarations that are expected and fit its name.
-/
def Follows (heads : List Head) (name : Name) (child? : Option Matcher) : Prop :=
  let fitting := heads.filter (·.names.contains name)
  (child? = none ↔ fitting = []) ∧ ∀ child, child? = some child → child.owners = fitting.map (·.id)

theorem child?_follows (name : Name) (hg : g.Sound defs) (h : g.store.Shows defs m.state e)
    (hcontents : g.store.ShowsContents defs contents e.heads) :
    Carries defs g (m.child? defs name) (Form.Matcher.child? contents (.single e none) name)
      fun _ child? _ => Follows e.heads.eraseDups name child? := by
  have hm : g.store.ShowsMatcher defs (.single m.state none) (.single e none) := ⟨h, rfl⟩
  have hchild : Carries defs g ((Matcher.single m.state none).child? defs name) _ _ :=
    child?_carries hg hm hcontents
  -- of the matcher only its state is looked at
  change Carries defs g (m.child? defs name) _ _ at hchild
  refine hchild.mono fun child? k _ _ hrel => ?_
  generalize hplan : (Form.Matcher.child? contents (.single e none) name).value = child'? at hrel
  cases hrel with
  | none =>
    refine ⟨iff_of_true rfl ?_, by rintro _ ⟨⟩⟩
    exact Form.Matcher.ofHeads?_eq_none_iff.1 hplan
  | @some child child' hshows =>
    obtain ⟨howners, hne, -⟩ := Form.Matcher.of_ofHeads? hplan
    refine ⟨iff_of_false (by simp) hne, ?_⟩
    rintro _ ⟨⟩
    rw [hshows.owners, howners]
    rfl

end Matcher

namespace Validation

open TreeGrammar.Graph

variable {defs : Definitions} {g : Graph} {gr : Grammar} {v : Validation} {e : Form}
variable {contents : ExprId → Form}

def Admits (v : Validation) (heads : List Head) (text : String) (tag : StartTag)
    (p : OpenElement × Validation) : Prop :=
  let fitting := heads.filter (·.names.contains tag.name)
  (fitting ≠ [] → p.1.matcher.owners = fitting.map (·.id) ∧ p.2 = v) ∧
    (fitting = [] → p.2 = v.report (.elementNotAllowed (toString tag.name) text))

theorem enter_admits (tag : StartTag) (hg : g.Sound defs)
    (h : g.store.Shows defs v.innermost.matcher.state e)
    (hcontents : g.store.ShowsContents defs contents e.heads) :
    Carries defs g (v.enter gr defs tag)
      (Form.Matcher.child? contents (.single e none) tag.name >>= fun _ => pure ())
      fun _ p _ => v.Admits e.heads.eraseDups e.describeHeads tag p := by
  refine Carries.bind (Matcher.child?_follows tag.name hg h hcontents) fun child? k hgk hk hchild => ?_
  obtain ⟨hnone, howners⟩ := hchild
  cases child? with
  | some child =>
    exact .pure hk ⟨fun _ => ⟨howners child rfl, rfl⟩, fun hnil => absurd (hnone.2 hnil) (by simp)⟩
  | none =>
    refine Carries.ask (describeHeads_carries hk (h.of_le (store_le hgk) le_rfl)) ?_
    rintro _ l _ hl rfl
    exact .pure hl ⟨fun hne => absurd (hnone.1 rfl) hne, fun _ => rfl⟩

end Validation

namespace Session

variable {s t : Session} {id : ExprId} {e : Form} {contents : ExprId → Form}

/--
What can come next in the expression are exactly these declarations, however one asks for them, and
it is the text that is told to readers.
-/
structure Expects (s : Session) (id : ExprId) (heads : List Head) (text : String) : Prop where
  mem_iff : ∀ head, head ∈ heads ↔
    s.schema.graph.store.node head.id = .element head.names head.content ∧
      ReflTransGen (Opens s.schema.graph.store s.schema.definitions) head.id id
  order : ∃ e, s.Shows id e ∧ heads = e.heads.eraseDups
  nodup : (heads.map (·.id)).Nodup
  element : ∀ satisfied,
    s.Completes (onGraph fun defs => Graph.derivative defs (.element satisfied) id) fun d _ =>
      d.rest ≠ .nullSet ↔ ∃ head ∈ heads, head.id ∈ satisfied
  anyElement : s.Completes (onGraph fun defs => Graph.derivative defs .anyElement id) fun d _ =>
    d.rest ≠ .nullSet ↔ heads ≠ []
  child : ∀ (m : Matcher) (name : Name), m.state = id →
    s.Completes (onGraph fun defs => m.child? defs name) fun child? _ =>
      Matcher.Follows heads name child?
  enter : ∀ (v : Validation) (gr : Grammar) (tag : StartTag), v.innermost.matcher.state = id →
    s.Completes (onGraph fun defs => v.enter gr defs tag) fun p _ => v.Admits heads text tag p
  described : ∃ t, onGraph (Graph.describeHeads · id) s = .ok (text, t)

theorem derivative_ne_nullSet_iff {token : Token} (hs : s.Sound) (h : s.Shows id e)
    (htoken : token.isElement) :
    s.Completes (onGraph fun defs => Graph.derivative defs token id) fun d _ =>
      d.rest ≠ .nullSet ↔ ∃ head ∈ e.heads.eraseDups, token.satisfies head.id := by
  refine (derivative_completes hs h).imp fun d t _ hd => ?_
  obtain ⟨-, -, hrest, -⟩ := hd
  rw [ne_eq, hrest.eq_nullSet_iff, ← ne_eq,
    Form.derivative_ne_nullSet_iff (h.isReduced hs.graph.reduced), Form.startsWith_iff htoken]
  simp only [List.mem_eraseDups]

theorem mem_heads_iff {head : Head} (hs : s.Sound) (h : s.Shows id e) : head ∈ e.heads.eraseDups ↔
    s.schema.graph.store.node head.id = .element head.names head.content ∧
      ReflTransGen (Opens s.schema.graph.store s.schema.definitions) head.id id := by
  obtain ⟨g, hrun⟩ := (Graph.heads_carries hs.graph h).exists_ok
  obtain ⟨-, -, hfound⟩ := (Graph.heads_returns hs.graph h.mem).ok _ g hrun
  exact hfound head

theorem expects_of_shows (hs : s.Sound) (h : s.Shows id e)
    (hcontents : s.schema.graph.store.ShowsContents s.schema.definitions contents e.heads) :
    s.Expects id e.heads.eraseDups e.describeHeads where
  mem_iff head := mem_heads_iff hs h
  order := ⟨e, h, rfl⟩
  nodup := Store.Shows.nodup_heads h
  element satisfied := by
    have htoken : (Token.element satisfied).isElement := rfl
    simpa only [Token.satisfies, List.contains_iff_mem] using derivative_ne_nullSet_iff hs h htoken
  anyElement := by
    have htoken : Token.anyElement.isElement := rfl
    refine (derivative_ne_nullSet_iff hs h htoken).imp fun d t _ hd => ?_
    rw [hd, ne_eq, List.eq_nil_iff_forall_not_mem]
    simp [Token.satisfies]
  child m name hm := by
    subst hm
    refine (Completes.of_carries hs (Matcher.child?_follows name hs.graph h hcontents)
      fun _ => Matcher.child?_uniform m name).imp fun child? t _ hchild => ?_
    exact hchild.2.2.2
  enter v gr tag hv := by
    subst hv
    refine (Completes.of_carries hs (Validation.enter_admits tag hs.graph h hcontents)
      fun _ => Validation.enter_uniform tag v).imp fun child? t _ hchild => ?_
    exact hchild.2.2.2
  described := exists_ok_of_carries (Graph.describeHeads_carries hs.graph h)

/--
The ways to ask what may come next in a checked expression agree, at any time.
-/
theorem expectations_agree (hs : s.Arises) (hid : s.Has id) (hcheck : s.schema.check id = .ok ()) :
    ∃ heads text, Enumerates text heads ∧ ∀ t, s.Develops t → t.Expects id heads text := by
  have hs := hs.sound
  have hwithin := hs.graph.within
  have hvetted : Vetted s.schema.graph.store s.schema.definitions id :=
    ⟨hid, Schema.check_ok hcheck⟩
  let f := s.schema.graph.store.form s.schema.definitions
  have hshows : s.Shows id (f id) := hvetted.shows hwithin
  have hproper := hvetted.proper hwithin hs.graph.reduced
  refine ⟨(f id).heads.eraseDups, (f id).describeHeads, enumerates_describe _, fun t hst => ?_⟩
  obtain ⟨hle, ht⟩ := hst.le_and_sound hs
  have hcontents : t.schema.graph.store.ShowsContents t.schema.definitions f (f id).heads := by
    intro head hhead
    have hcontent : s.Shows head.content (f head.content) :=
      (hproper.declarations.heads head hhead).shows hwithin
    exact hcontent.of_le hle
  exact expects_of_shows ht (hshows.of_le hle) hcontents

/--
Two declarations share a name, one of which can come first in two places, and one class of names is
not shown.
-/
theorem expectations_agree_shared :
    ∃ (s : Session) (id : ExprId) (heads : List Head) (text : String) (a a' : ExprId), s.Arises ∧
      s.Has id ∧ s.schema.check id = .ok () ∧ Enumerates text heads ∧
      (∀ t, s.Develops t → t.Expects id heads text) ∧
      text = "Element a b c d .. or one of 1 more" ∧ a ≠ a' ∧
      (heads.filter (·.names.contains (.ofLocal "a"))).map (·.id) = [a, a'] := by
  let declare (name : String) (content : Term) : Term := .element (.ofLocal name) content
  obtain ⟨s, hs, hp⟩ := Reachable.of_leadsTo (fun _ => .string)
    [.bind "r" (.reference "r"), .bind "x" (declare "a" .epsilon),
      .bind "y" (declare "a" .anyString),
      .define (.variable "r") (.optional (.variable "x")),
      .bind "e" (.sequence (.variable "r") (.interleave
        (.oneOrMore (.choice (declare "b" .epsilon) (.variable "x")))
        (.mixed (.sequence (.optional (declare "c" (.variable "r")))
          (.choice (declare "d" .epsilon) (.choice (.variable "y") (declare "f" .epsilon)))))))]
    (fun s => s.bindings["e"]?.any fun id => s.bindings["x"]?.any fun a =>
      s.bindings["y"]?.any fun a' =>
        s.schema.check id = .ok () && a ≠ a' &&
          ((onGraph (Graph.describeHeads · id) s).toOption.any fun p =>
            p.1 = "Element a b c d .. or one of 1 more") &&
          (onGraph (fun defs => (Matcher.ofContent id).child? defs (.ofLocal "a")) s).toOption.any
            fun p => p.1.any fun child => child.owners = [a, a'])
    (by simp [Command.isLawful]) (by decide +kernel)
  obtain ⟨id, hid, hp⟩ := (Option.any_eq_true _ _).1 hp
  obtain ⟨a, -, hp⟩ := (Option.any_eq_true _ _).1 hp
  obtain ⟨a', -, hp⟩ := (Option.any_eq_true _ _).1 hp
  simp only [Bool.and_eq_true, decide_eq_true_eq] at hp
  obtain ⟨⟨⟨hcheck, hne⟩, htext⟩, hchild⟩ := hp
  have hid := hs.sound.bindings _ id hid
  obtain ⟨heads, text, henumerates, hexpects⟩ := expectations_agree hs.arises hid hcheck
  have hnow := hexpects s .refl
  refine ⟨s, id, heads, text, a, a', hs.arises, hid, hcheck, henumerates, hexpects, ?_, hne, ?_⟩
  . obtain ⟨t, hrun⟩ := hnow.described
    simpa [hrun, Except.toOption] using htext
  . have hcompletes := hnow.child (.ofContent id) (.ofLocal "a") rfl
    obtain ⟨⟨child?, t⟩, hrun, hchild⟩ := exists_of_any_toOption hchild
    obtain ⟨child, rfl, howners⟩ := (Option.any_eq_true _ _).1 hchild
    rw [decide_eq_true_eq] at howners
    rw [← (hcompletes.ok _ t hrun).2 child rfl, howners]

end Session

end TreeGrammar
