import TreeGrammar.Proofs.Documents
import TreeGrammar.Proofs.Nesting

/-!
This module contains that an element whose declarations are known always fits its parent when it ends,
whatever there has been in it.
-/

namespace TreeGrammar

theorem isNone_eq_of_rel {α β : Type} {R : α → β → Prop} {a : Option α} {b : Option β}
    (h : Option.Rel R a b) : a.isNone = b.isNone := by
  cases h <;> rfl

/--
The element follows declarations of its parent, rather than being an unexpected one.
-/
def OpenElement.IsKnown (e : OpenElement) : Prop :=
  e.matcher.owners ≠ []

namespace Store

variable {s : Store} {defs : Definitions} {m : Matcher} {m' : Form.Matcher} {e : OpenElement}
variable {e' : Form.OpenElement}

theorem ShowsMatcher.owners (h : s.ShowsMatcher defs m m') : m.owners = m'.owners := by
  match m, m' with
  | .single _ none, .single _ none => rfl
  | .single _ (some owner), .single _ (some owner') =>
    obtain ⟨-, howner⟩ := h
    cases howner
    rfl
  | .single _ none, .single _ (some _) | .single _ (some _), .single _ none => cases h.2
  | .single .., .several .. | .several .., .single .. => exact h.elim
  | .several _ slots, .several _ slots' =>
    rw [Matcher.owners, Form.Matcher.owners, ← List.forall₂_eq_eq_eq, List.forall₂_map_left_iff,
      List.forall₂_map_right_iff]
    exact h.2.imp fun _ _ hslot => hslot.1

theorem ShowsValidation.owners {v : Validation} {v' : Form.Validation}
    (h : s.ShowsValidation defs v v') : v.elements.map (·.matcher.owners) = v'.followed := by
  rw [Form.Validation.followed, ← List.forall₂_eq_eq_eq, List.forall₂_map_left_iff,
    List.forall₂_map_right_iff]
  exact h.elements.imp fun _ _ he => he.matcher.owners

theorem ShowsElement.isKnown (h : s.ShowsElement defs e e') :
    e.IsKnown ↔ e'.matcher.owners ≠ [] := by
  rw [OpenElement.IsKnown, h.matcher.owners]

end Store

namespace Validation

variable {defs : Definitions} {g h : Graph} {gr : Grammar} {v w : Validation} {e : OpenElement}
variable {tag : StartTag}

theorem isKnown_iff_of_enter (hg : g.Sound defs) (hv : v.IsVetted g.store defs)
    (henter : v.enter gr defs tag g = .ok ((e, w), h)) :
    e.IsKnown ↔ ∃ m k, v.innermost.matcher.child? defs tag.name g = .ok (some m, k) := by
  let found := v.innermost.matcher.child? defs tag.name
  have hchild := Matcher.child?_returns tag.name hg hv.innermost.within.state
  have hfound : Graph.Returns defs g found (fun _ => True) fun r h =>
      (r.any fun m => !m.owners.isEmpty) = r.isSome ∧ found g = .ok (r, h) := by
    refine ⟨hchild.forgetful, fun _ _ => trivial, ?_⟩
    intro r h hr
    obtain ⟨hgh, hh, hjoins⟩ := hchild.ok r h hr
    refine ⟨hgh, hh, ?_, hr⟩
    cases r with
    | none => rfl
    | some m =>
      obtain ⟨slots, hne, -, hjoins⟩ := hjoins
      simpa [Matcher.owners, hjoins.slots] using hne
  have hknown : Graph.Returns defs g (v.enter gr defs tag) (fun _ => True) fun p _ =>
      p.1.IsKnown ↔ ∃ m k, found g = .ok (some m, k) := by
    refine Graph.Returns.bind hfound ?_
    rintro r k hgk hk ⟨hany, hr⟩
    simp only [hr]
    cases r with
    | some m => exact .pure hk (by simpa [OpenElement.IsKnown] using hany)
    | none =>
      have hstate := Store.mem_of_le (Graph.store_le hgk) hv.innermost.within.state
      refine Graph.Returns.bind ((Graph.describeHeads_returns hk hstate).mono (fun _ _ => trivial)
        fun _ _ _ _ h => h) fun _ l _ hl _ => .pure hl ?_
      simp [OpenElement.IsKnown, Matcher.ofContent, Matcher.owners, Matcher.slots]
  exact (hknown.ok _ _ henter).2.2

end Validation

namespace Session

variable {s t : Session} {name : String} {gr : Grammar} {v w : Validation} {e : OpenElement} {g : Graph}

theorem form_eq_of_le (hs : s.Sound) (hv : s.validations[name]? = some v)
    (hst : s.schema ≤ t.schema) :
    v.form t.schema.graph.store t.schema.definitions =
      v.form s.schema.graph.store s.schema.definitions := by
  have hshows := (views_form hs hv).shows
  exact (hshows.imp fun _ _ hid => hid.of_le (Graph.store_le hst.2) hst.1).form_eq

/--
In all validations the open elements are nested, and no child has been rejected.
-/
theorem Reachable.orderly (hs : s.Reachable) (hv : s.validations[name]? = some v) :
    (v.form s.schema.graph.store s.schema.definitions).Orderly := by
  have took {s t : Session} {v : Validation} {w : Form.Validation} {built : List Form}
      (h : s.Took s t name w built) (hv : t.validations[name]? = some v) (hw : w.Orderly) :
      (v.form t.schema.graph.store t.schema.definitions).Orderly := by
    obtain ⟨v', hv', hviews⟩ := h.get
    rw [hv] at hv'
    cases hv'
    rwa [h.continues.definitions, hviews.shows.form_eq]
  induction hs generalizing v with
  | create h =>
    rw [create_eq] at h
    split at h
    . cases h
    . cases h
      simp at hv
  | @perform s c answer t hs hc hperform ih =>
    have hsound := hs.sound
    obtain ⟨hle, -, halters⟩ := (perform_returns c hc hsound).ok _ _ hperform
    by_cases hrevises : c.Revises name
    . cases c with
      | createValidation other =>
        cases hrevises
        obtain ⟨gr, hgr⟩ := exists_of_perform_createValidation hperform
        rw [perform_createValidation hgr] at hperform
        cases hperform
        exact took (took_createValidation hsound hgr (.refl hsound)) hv (.create _)
      | take other event =>
        cases hrevises
        obtain ⟨gr, u, hgr, hu⟩ := exists_of_perform_take hperform
        have hviews := views_form hsound hu
        obtain ⟨w, hw, -, htook⟩ := perform_take_ok hsound hgr (.refl hsound) hu hviews hperform
        refine took htook hv ?_
        exact Form.Validation.take_orderly event (keeps_proper hsound hgr).stable
          (fun _ he => he.reduced) hviews.proper (ih hu) w hw
      | _ => cases hrevises
    . rw [halters.validations name hrevises] at hv
      rw [form_eq_of_le hsound hv hle]
      exact ih hv

theorem owners_of_take {event : Event} {answer : Answer} (hs : s.Reachable)
    (hv : s.validations[name]? = some v) (hok : perform (.take name event) s = .ok (answer, t)) :
    ∃ w, t.validations[name]? = some w ∧
      let owners (v : Validation) := v.elements.map (·.matcher.owners)
      match event with
      | .startElement _ => ∃ own, owners w = own :: owners v
      | .endElement => owners w = (owners v).tail
      | .characters _ | .endDocument => owners w = owners v := by
  have hsound := hs.sound
  obtain ⟨gr, u, hgr, hu⟩ := exists_of_perform_take hok
  have hviews := views_form hsound hv
  obtain ⟨w', hw', -, htook⟩ := perform_take_ok hsound hgr (.refl hsound) hv hviews hok
  obtain ⟨w, hw, hviews'⟩ := htook.get
  refine ⟨w, hw, ?_⟩
  dsimp only
  rw [hviews.shows.owners, hviews'.shows.owners]
  cases event with
  | startElement tag => exact Form.Validation.followed_of_startElement hw'
  | characters text =>
    cases hw'
    rfl
  | endElement =>
    cases hw'
    exact Form.Validation.followed_endElement
  | endDocument =>
    cases hw'
    exact Form.Validation.followed_endDocument

/--
When an element ends, its parent reads it at once if it is known, as far as there is room. If the
parent does not read it, the element is an unexpected one, and the parent waits for no element at
all. So it is never reported that a child has been rejected. The reading is the first thing done in
leaving the element, with which the end tag goes on after `ended`.
-/
theorem known_child_fits (hs : s.Reachable) (hv : s.validations[name]? = some v) :
    (∀ e w g, v.ended s.schema.definitions s.schema.graph = .ok ((some e, w), g) →
      let parent := w.innermost.matcher
      let read := parent.readChild? s.schema.definitions e.matcher e.faulty g
      (∀ gr, v.endElement gr s.schema.definitions s.schema.graph =
        w.leave gr s.schema.definitions e g) ∧
      (e.IsKnown → (∃ m h, read = .ok (some m, h)) ∨ ∃ limit, read = .error (.limitExceeded limit)) ∧
      ∀ h, read = .ok (none, h) → ¬ e.IsKnown ∧ e.faulty ∧
        ∀ label r k, parent.child? s.schema.definitions label h = .ok (r, k) → r = none) ∧
    ∀ element parent, .childRejected element parent ∉ v.errors := by
  have hsound := hs.sound
  have hviews := views_form hsound hv
  have horderly := hs.orderly hv
  refine ⟨?_, horderly.accepted⟩
  intro e w g hended parent read
  have hstable := Form.stable_proper
    (Head.IsVetted s.schema.graph.store s.schema.definitions)
  obtain ⟨-, hg, ⟨hrel, hw⟩, -⟩ :=
    (Validation.ended_carries hsound.graph hviews.shows).ok _ _ hended
  have hends := Form.Validation.ended_ended hstable (fun _ he => he.reduced) hviews.proper horderly
  generalize (v.form s.schema.graph.store s.schema.definitions).ended.value = p at hrel hw hends
  obtain ⟨e?, w'⟩ := p
  cases hrel with | @some _ e' he =>
  obtain ⟨hends, hreduced⟩ := hends
  have hparent := hw.innermost.matcher
  have hread : Graph.Carries s.schema.definitions g
      (parent.readChild? s.schema.definitions e.matcher e.faulty)
      (w'.innermost.matcher.readChild? e'.matcher e.faulty) _ _ :=
    Matcher.readChild?_carries hg hparent he.matcher
  -- where the plan has no result, nothing could have been read
  have hmissing : (w'.innermost.matcher.readChild? e'.matcher e.faulty).value = none →
      ¬ e.IsKnown ∧ e.faulty ∧ w'.innermost.matcher.state.heads = [] := by
    rw [he.faulty, he.isKnown, not_not]
    exact hends.fits.readChild? hreduced hends.done
  refine ⟨fun gr => ?_, ?_, ?_⟩
  . rw [Validation.endElement_eq]
    simp only [Bind.bind, StateT.bind, hended, Except.bind]
  . intro hknown
    cases hrun : read with
    | error f =>
      rcases hread.error f hrun with ⟨⟨limit, rfl⟩, -⟩ | hfalse
      . exact Or.inr ⟨limit, rfl⟩
      . exact hfalse.elim
    | ok p =>
      obtain ⟨m?, h⟩ := p
      obtain ⟨-, -, hm, -⟩ := hread.ok m? h hrun
      cases m? with
      | some m => exact Or.inl ⟨m, h, rfl⟩
      | none =>
        exact absurd hknown (hmissing (Option.isNone_iff_eq_none.1 (isNone_eq_of_rel hm).symm)).1
  . intro h hrun
    obtain ⟨hgh, hh, hm, -⟩ := hread.ok none h hrun
    obtain ⟨hunknown, hfaulty, hheads⟩ :=
      hmissing (Option.isNone_iff_eq_none.1 (isNone_eq_of_rel hm).symm)
    refine ⟨hunknown, hfaulty, ?_⟩
    intro label r k hchild
    have hcontents : h.store.ShowsContents s.schema.definitions (fun _ => .nullSet)
        w'.innermost.matcher.state.heads := by
      rw [hheads]
      simp [Store.ShowsContents]
    have hparent := hparent.of_le (Graph.store_le hgh)
    obtain ⟨-, -, hr, -⟩ :=
      (Matcher.child?_carries hh hparent hcontents).ok r k hchild
    rw [Form.Matcher.child?, Form.Matcher.candidates, hheads] at hr
    exact Option.isNone_iff_eq_none.1 (isNone_eq_of_rel hr)

/--
An element ends that could have been declared in two ways, and satisfies neither declaration.
-/
theorem known_child_fits_faulty :
    ∃ (s : Session) (v : Validation) (e : OpenElement) (w : Validation) (g : Graph),
      s.Reachable ∧ s.validations["w"]? = some v ∧
      v.ended s.schema.definitions s.schema.graph = .ok ((some e, w), g) ∧ e.IsKnown ∧ e.faulty ∧
      (let read := w.innermost.matcher.readChild? s.schema.definitions e.matcher e.faulty g
      (∃ m h, read = .ok (some m, h)) ∨ ∃ limit, read = .error (.limitExceeded limit)) ∧
      ∀ element parent, .childRejected element parent ∉ v.errors := by
  let element (label : String) : Term → Term := .element (.only ⟨"", label⟩)
  let tag (label : String) : Event := .startElement { name := ⟨"", label⟩ }
  let either : Term := .choice (element "b" (element "c" .epsilon)) (element "b" (element "d" .epsilon))
  obtain ⟨s, hs, hp⟩ := Reachable.of_leadsTo (fun _ => .string)
    [.createGrammar (element "a" either), .createValidation "w", .take "w" (tag "a"),
      .take "w" (tag "b")]
    (fun s => s.validations["w"]?.any fun v =>
      (v.ended s.schema.definitions s.schema.graph).toOption.any fun p =>
        p.1.1.any fun e => e.matcher.owners.length = 2 && e.faulty)
    (by simp [Command.isLawful]) (by decide +kernel)
  obtain ⟨v, hv, hp⟩ := (Option.any_eq_true _ _).1 hp
  have hfits := known_child_fits hs hv
  obtain ⟨⟨⟨e?, w⟩, g⟩, hended, hp⟩ := exists_of_any_toOption hp
  obtain ⟨e, rfl, hfollowed⟩ := (Option.any_eq_true _ _).1 hp
  simp only [Bool.and_eq_true, decide_eq_true_eq] at hfollowed
  have hknown : e.IsKnown := fun hnone => by simp [hnone] at hfollowed
  exact ⟨s, v, e, w, g, hs, hv, hended, hknown, hfollowed.2, (hfits.1 e w g hended).2.1 hknown, hfits.2⟩

end Session

end TreeGrammar
