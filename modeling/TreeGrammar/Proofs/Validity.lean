import TreeGrammar.Proofs.Document
import TreeGrammar.Proofs.Faults

/-!
This module contains the correctness of validations: there is no mistake at the end of a document
exactly if the document is valid.
-/

namespace TreeGrammar

theorem StartTag.matches_iff {s : Store} {defs : Definitions} {tag : StartTag} {scope : Scope}
    {body : List Letter} {id : ExprId} (hallows : s.Allows tag.name id) :
    tag.Matches s defs scope body id ↔
      [] ∈ (tag.letters scope body).foldl Language.advance (s.contentLanguage defs id) := by
  obtain ⟨names, content, hn, hnames⟩ := hallows
  have hcontent : s.contentLanguage defs id = s.language defs content := by
    unfold Store.contentLanguage
    rw [hn]
  rw [hcontent, ← Language.mem_loose_iff_foldl]
  constructor
  . rintro ⟨names', content', hn', _, hmem⟩
    rw [hn] at hn'
    cases hn'
    exact hmem
  . intro hmem
    exact ⟨names, content, hn, hnames, hmem⟩

theorem StartTag.allows_of_matches {s : Store} {defs : Definitions} {tag : StartTag} {scope : Scope}
    {body : List Letter} {id : ExprId} (h : tag.Matches s defs scope body id) :
    s.Allows tag.name id := by
  obtain ⟨names, content, hn, hnames, _⟩ := h
  exact ⟨names, content, hn, hnames⟩

namespace OpenElement

theorem Follows.congr {s t : Store} {defs defs' : Definitions} {errors : List ValidationError}
    {e : OpenElement} {ys : List ExprId} {l l' : Language Letter} {ls ls' : ExprId → Language Letter}
    (h : e.Follows s defs t defs' errors ys l ls) (hl : l = l')
    (hls : errors = [] → ∀ y ∈ ys, ls y = ls' y) : e.Follows s defs t defs' errors ys l' ls' where
  tracks := by
    intro herrors
    obtain ⟨hflawless, hmatcher, rfl⟩ := h.tracks herrors
    exact ⟨hflawless, hmatcher.congr hl (hls herrors), rfl⟩
  nothing := by
    intro herrors
    rw [← hl]
    exact h.nothing herrors

end OpenElement

namespace Validation

/--
The forest goes by: the letters are read, and the text is what is still to be read at its end.
-/
structure Passes (s₀ : Store) (defs₀ : Definitions) (letters : List Letter) (text : String)
    (schema : Schema) (v : Validation) (schema' : Schema) (v' : Validation) : Prop where
  grows : schema ≤ schema'
  keeps : v.Keeps v'
  text : v'.text = text
  hasContent : v'.innermost.hasContent = (v.innermost.hasContent || !letters.isEmpty)
  follows : ∀ ys l ls,
    v.innermost.Follows s₀ defs₀ schema.graph.store schema.definitions v.errors ys l ls →
    v'.innermost.Follows s₀ defs₀ schema'.graph.store schema'.definitions v'.errors ys
      (letters.foldl Language.advance l) fun y => letters.foldl Language.advance (ls y)

variable {s₀ : Store} {defs₀ : Definitions} {letters letters' : List Letter} {text text' : String}
variable {schema schema' schema'' : Schema} {u v w x : Validation}

namespace Passes

theorem refl : Passes s₀ defs₀ [] v.text schema v schema v :=
  ⟨le_rfl, ⟨rfl, rfl, rfl, List.prefix_rfl⟩, rfl, by simp, fun _ _ _ h => h⟩

theorem trans (h : Passes s₀ defs₀ letters text schema u schema' v)
    (h' : Passes s₀ defs₀ letters' text' schema' v schema'' w) :
    Passes s₀ defs₀ (letters ++ letters') text' schema u schema'' w where
  grows := le_trans h.grows h'.grows
  keeps := ⟨h'.keeps.outer.trans h.keeps.outer, h'.keeps.scope.trans h.keeps.scope,
    h'.keeps.declared.trans h.keeps.declared, h.keeps.errors.trans h'.keeps.errors⟩
  text := h'.text
  hasContent := by
    rw [h'.hasContent, h.hasContent]
    cases letters <;> simp
  follows := by
    intro ys l ls hfollows
    simp only [List.foldl_append]
    exact h'.follows ys _ _ (h.follows ys l ls hfollows)

theorem later (h : Passes s₀ defs₀ letters text schema v schema' w)
    (hwithin : schema'.definitions.Within schema'.graph.store) (hle : schema' ≤ schema'') :
    Passes s₀ defs₀ letters text schema v schema'' w where
  grows := le_trans h.grows hle
  keeps := h.keeps
  text := h.text
  hasContent := h.hasContent
  follows ys l ls hfollows :=
    (h.follows ys l ls hfollows).of_le hwithin (Graph.store_le hle.2) hle.1

theorem earlier (h : Passes s₀ defs₀ letters text schema' v schema'' w)
    (hwithin : schema.definitions.Within schema.graph.store) (hle : schema ≤ schema') :
    Passes s₀ defs₀ letters text schema v schema'' w where
  grows := le_trans hle h.grows
  keeps := h.keeps
  text := h.text
  hasContent := h.hasContent
  follows ys l ls hfollows :=
    h.follows ys l ls (hfollows.of_le hwithin (Graph.store_le hle.2) hle.1)

theorem characters {run : String} :
    Passes s₀ defs₀ [] (v.text ++ run) schema v schema (v.characters run) :=
  ⟨le_rfl, ⟨rfl, rfl, rfl, List.prefix_rfl⟩, rfl, by simp [Validation.characters, innermost],
    fun _ _ _ h => h⟩

end Passes

theorem unread_false : v.unread false = textLetters v.text v.scope := by
  unfold unread textLetters
  simp

theorem closed_append_unread {content : Forest} {scope : Scope}
    (htext : v.text = content.pending "") (hscope : v.scope = scope)
    (hcontent : v.innermost.hasContent = !(content.closed s₀ defs₀ scope "").isEmpty) :
    content.closed s₀ defs₀ scope "" ++ v.unread true =
      let body := content.letters s₀ defs₀ scope ""
      if body.isEmpty then [.text "" scope] else body := by
  have hletters : content.letters s₀ defs₀ scope "" = _ := Forest.letters_eq content
  dsimp only
  rw [hletters]
  unfold unread textLetters
  rw [hcontent, htext, hscope]
  by_cases hempty : (content.pending "").isEmpty
  . have heq : content.pending "" = "" := by simpa using hempty
    rw [heq]
    cases hclosed : content.closed s₀ defs₀ scope "" <;> simp
  . simp [hempty]

theorem matches_iff_of_passes {tag : StartTag} {content : Forest} {scope : Scope} {id : ExprId}
    (hallows : s₀.Allows tag.name id) (htext : v.text = content.pending "") (hscope : v.scope = scope)
    (hcontent : v.innermost.hasContent = !(content.closed s₀ defs₀ scope "").isEmpty) :
    tag.Matches s₀ defs₀ scope (content.letters s₀ defs₀ scope "") id ↔
      [] ∈ (v.unread true).foldl Language.advance
        ((content.closed s₀ defs₀ scope "").foldl Language.advance
          (Language.bare ((attributeLetters tag.attributes scope).foldl Language.advance
            (s₀.contentLanguage defs₀ id)))) := by
  have hread := closed_append_unread htext hscope hcontent
  dsimp only at hread
  have hplain : ∀ x ∈ content.closed s₀ defs₀ scope "" ++ v.unread true,
      x.isAttribute = false := by
    rw [hread]
    split
    . intro x hx
      rw [List.mem_singleton.1 hx]
      rfl
    . exact fun x hx => Forest.isAttribute_of_mem_letters hx
  rw [StartTag.matches_iff hallows, ← List.foldl_append, Language.foldl_advance_bare hplain,
    Language.nil_mem_bare, hread]
  unfold StartTag.letters
  rw [List.foldl_append]
  rfl

theorem Passes.element {tag : StartTag} {content : Forest} {scope : Scope}
    {q : OpenElement × Validation} {schema₁ schema₂ : Schema}
    (hscope : v.scope.declare tag.declarations = scope)
    (hwithin : schema₁.definitions.Within schema₁.graph.store)
    (hgrows : schema ≤ schema₁) (hdefs : schema₁.definitions = schema.definitions)
    (hbegins : Begins schema.definitions schema.graph.store schema₁.graph.store tag
      (fun l => Language.bare ((attributeLetters tag.attributes scope).foldl Language.advance l)) v q)
    (hcontent : Passes s₀ defs₀ (content.closed s₀ defs₀ scope "") (content.pending "")
      schema₁ (q.2.push q.1) schema₂ w)
    (hgrows' : schema₂ ≤ schema') (hdefs' : schema'.definitions = schema₂.definitions)
    (hcloses : Closes schema₂.definitions schema₂.graph.store schema'.graph.store w
      q.2.innermost q.2.outer x) :
    Passes s₀ defs₀ (textLetters v.text v.scope ++
      [.element (tag.Matches s₀ defs₀ scope (content.letters s₀ defs₀ scope ""))]) ""
      schema v schema' x := by
  have hdeclared : w.innermost.declared = tag.declarations.length :=
    hcontent.keeps.declared.trans hbegins.declared
  have hinner : w.scope = scope := (hcontent.keeps.scope.trans hbegins.scope).trans hscope
  have hhasContent : w.innermost.hasContent = !(content.closed s₀ defs₀ scope "").isEmpty := by
    have hnone : (q.2.push q.1).innermost.hasContent = false := hbegins.hasContent
    rw [hcontent.hasContent, hnone, Bool.false_or]
  have herrors : q.2.errors <+: w.errors := hcontent.keeps.errors
  refine ⟨le_trans hgrows (le_trans hcontent.grows hgrows'), ⟨?_, ?_, ?_, ?_⟩, hcloses.text, ?_, ?_⟩
  . exact hcloses.outer.trans hbegins.outer
  . rw [hcloses.scope, hdeclared, hinner, ← hscope]
    unfold Scope.declare
    rw [← List.length_reverse, List.drop_left]
  . exact hcloses.declared.trans hbegins.parent_declared
  . exact hbegins.errors.trans (herrors.trans hcloses.errors)
  . rw [hcloses.hasContent, hbegins.parent_hasContent]
    simp
  . intro ys l ls hfollows
    obtain ⟨zs, le, hchildren, hchild, hparent⟩ := hbegins.follows s₀ defs₀ ys l ls hfollows
    rw [← hdefs] at hchild hparent
    have hread := hcontent.follows zs _ _ hchild
    have hattributes := pointwise_foldl_advance (attributeLetters tag.attributes scope) le
      (s₀.contentLanguage defs₀) zs hchildren.covers
    have hcovers := pointwise_foldl_advance (content.closed s₀ defs₀ scope "") _ _ zs
      (pointwise_bare _ _ zs hattributes)
    have hparent' (hnil : w.errors = []) := by
      obtain ⟨htracks, _⟩ := hparent (List.prefix_nil.1 (hnil ▸ herrors))
      exact htracks.of_le hwithin (Graph.store_le hcontent.grows.2) hcontent.grows.1
    have hdone := hcloses.follows s₀ defs₀ zs _ _ ys _ _ _ hread hcovers hparent' hchildren.heeds
    rw [← hdefs'] at hdone
    -- it is read as a child that matches the declarations followed, which makes no difference
    have hmatches {m : Language Letter} (hheeds : Heeds m (s₀.Allows tag.name) zs) :=
      hheeds.advance_eq
        (fun z (hz : tag.Matches s₀ defs₀ scope (content.letters s₀ defs₀ scope "") z) =>
          StartTag.allows_of_matches hz)
        (fun z hz => hz.1)
        fun z hz => (matches_iff_of_passes (hchildren.allows z hz) hcontent.text hinner
          hhasContent).trans (and_iff_right hz).symm
    simp only [List.foldl_append, List.foldl_cons, List.foldl_nil, ← unread_false]
    refine hdone.congr (hmatches hchildren.heeds).symm ?_
    intro hnil y hy
    have hbefore := List.prefix_nil.1 (hnil ▸ herrors.trans hcloses.errors)
    exact (hmatches ((hparent hbefore).2 y hy)).symm

end Validation

namespace Session

/--
Requests are carried out one after the other. The events are what they have the validation of the
name take. They do nothing else to the validation.
-/
inductive Takes (name : String) : Session → List Event → Session → Prop where
  | nil {s} : Takes name s [] s
  | aside {s t u c answer events} : c.isLawful → ¬ c.Revises name →
    perform c s = .ok (answer, t) → Takes name t events u → Takes name s events u
  | take {s t u event answer events} : perform (.take name event) s = .ok (answer, t) →
    Takes name t events u → Takes name s (event :: events) u

/--
The validation of the name by the grammar has come as far as `v`.
-/
structure Stands (name : String) (gr : Grammar) (v : Validation) (s : Session) : Prop where
  reachable : s.Reachable
  grammar : s.grammar = some gr
  validation : s.validations[name]? = some v

variable {s t u : Session} {name : String} {gr : Grammar} {v w : Validation} {c : Command}
variable {event : Event} {events : List Event} {answer : Answer}

namespace Stands

theorem within (hs : Stands name gr v s) :
    s.schema.definitions.Within s.schema.graph.store :=
  hs.reachable.sound.graph.within

theorem vetted (hs : Stands name gr v s) :
    v.IsVetted s.schema.graph.store s.schema.definitions :=
  hs.reachable.sound.validations name v hs.validation

theorem anyContent (hs : Stands name gr v s) :
    Vetted s.schema.graph.store s.schema.definitions gr.anyContent :=
  (hs.reachable.sound.grammar gr hs.grammar).2

theorem aside (hs : Stands name gr v s) (hc : c.isLawful) (hname : ¬ c.Revises name)
    (hperform : perform c s = .ok (answer, t)) : s.schema ≤ t.schema ∧ Stands name gr v t := by
  obtain ⟨hst, _, halters⟩ := (perform_returns c hc hs.reachable.sound).ok _ _ hperform
  refine ⟨hst, hs.reachable.perform hc hperform, halters.grammar gr hs.grammar, ?_⟩
  exact (halters.validations name hname).trans hs.validation

theorem take (hs : Stands name gr v s) (hperform : perform (.take name event) s = .ok (answer, t)) :
    ∃ v', v.take gr s.schema.definitions event s.schema.graph = .ok (v', t.schema.graph) ∧
      t.schema.definitions = s.schema.definitions ∧ Stands name gr v' t := by
  have ht : t.Reachable := hs.reachable.perform rfl hperform
  rw [perform_take hs.grammar hs.validation] at hperform
  split at hperform
  . next v' graph htake =>
    cases hperform
    exact ⟨v', htake, rfl, ht, hs.grammar, Std.TreeMap.getElem?_insert_self⟩
  . cases hperform

end Stands

theorem Takes.of_run {answers : List Answer}
    (h : run (events.map (Command.take name)) s = (answers, .ok t)) : Takes name s events t := by
  induction events generalizing s answers with
  | nil =>
    cases h
    exact .nil
  | cons event events ih =>
    rw [List.map_cons] at h
    unfold run StateT.run at h
    split at h
    . cases h
    . next answer u hperform => exact .take hperform (ih (Prod.ext rfl (Prod.mk.inj h).2))

theorem Takes.nothing (h : Takes name s [] t) (hs : Stands name gr v s) :
    s.schema ≤ t.schema ∧ Stands name gr v t := by
  generalize hevents : [] = events at h
  induction h with
  | nil => exact ⟨le_rfl, hs⟩
  | aside hc hname hperform _ ih =>
    obtain ⟨hst, ht⟩ := hs.aside hc hname hperform
    obtain ⟨htu, hu⟩ := ih ht hevents
    exact ⟨le_trans hst htu, hu⟩
  | take => cases hevents

theorem Takes.next (h : Takes name s (event :: events) u) (hs : Stands name gr v s) :
    ∃ s' t v', s.schema ≤ s'.schema ∧ Stands name gr v s' ∧
      v.take gr s'.schema.definitions event s'.schema.graph = .ok (v', t.schema.graph) ∧
      t.schema.definitions = s'.schema.definitions ∧ Stands name gr v' t ∧
      Takes name t events u := by
  generalize hevents : event :: events = all at h
  induction h with
  | nil => cases hevents
  | aside hc hname hperform _ ih =>
    obtain ⟨hst, ht⟩ := hs.aside hc hname hperform
    obtain ⟨s', t, v', htu, hrest⟩ := ih ht hevents
    exact ⟨s', t, v', le_trans hst htu, hrest⟩
  | take hperform htakes _ =>
    cases hevents
    obtain ⟨v', htake, hdefs, ht⟩ := hs.take hperform
    exact ⟨_, _, v', le_rfl, hs, htake, hdefs, ht, htakes⟩

/--
The forest is read as its letters say, whatever is open around it and whatever comes after it.
-/
theorem Takes.forest (s₀ : Store) (defs₀ : Definitions) (forest : Forest)
    (h : Takes name s (forest.events ++ events) u) (hs : Stands name gr v s) :
    ∃ t w, Stands name gr w t ∧ Takes name t events u ∧
      Validation.Passes s₀ defs₀ (forest.closed s₀ defs₀ v.scope v.text) (forest.pending v.text)
        s.schema v t.schema w := by
  induction forest generalizing s v events with
  | nil => exact ⟨s, v, hs, h, .refl⟩
  | text run rest ih =>
    obtain ⟨s', t, v', hss', _, htake, hdefs, ht, htakes⟩ := h.next hs
    obtain ⟨rfl, hgraph⟩ : v.characters run = v' ∧ s'.schema.graph = t.schema.graph :=
      Prod.mk.inj (Except.ok.inj htake)
    have hst : s.schema ≤ t.schema := by
      refine le_trans hss' ⟨?_, ?_⟩
      . rw [hdefs]
      . rw [hgraph]
    obtain ⟨t', w, ht', hrest, hpasses⟩ := ih htakes ht
    exact ⟨t', w, ht', hrest, (Validation.Passes.characters.later hs.within hst).trans hpasses⟩
  | element tag content rest ihContent ihRest =>
    have h : Takes name s (.startElement tag ::
        (content.events ++ .endElement :: (rest.events ++ events))) u := by
      simpa [Forest.events] using h
    obtain ⟨s₁, t₁, _, hss₁, hs₁, htake, hdefs, ht₁, htakes⟩ := h.next hs
    obtain ⟨hst₁, _, q, rfl, hbegins⟩ := (Validation.startElement_returns hs₁.reachable.sound.graph
      hs₁.vetted hs₁.anyContent).ok _ _ htake
    obtain ⟨t₂, w, ht₂, htakes, hcontent⟩ := ihContent htakes ht₁
    obtain ⟨s₃, t₃, x, hts₃, hs₃, htake, hdefs', ht₃, htakes⟩ := htakes.next ht₂
    have houter : w.outer = q.2.innermost :: q.2.outer :=
      hcontent.keeps.outer.trans Validation.outer_push
    obtain ⟨hst₃, _, hcloses⟩ := (Validation.endElement_returns hs₃.reachable.sound.graph hs₃.vetted
      hs₃.anyContent houter).ok _ _ htake
    obtain ⟨t₄, y, ht₄, htakes, hrest⟩ := ihRest htakes ht₃
    refine ⟨t₄, y, ht₄, htakes, ?_⟩
    have hscope : (q.2.push q.1).scope = v.scope.declare tag.declarations := hbegins.scope
    have htext : (q.2.push q.1).text = "" := hbegins.text
    rw [hscope, htext] at hcontent
    have helement := Validation.Passes.element rfl ht₁.within ⟨hdefs.ge, hst₁⟩ hdefs hbegins
      (hcontent.later ht₂.within hts₃) ⟨hdefs'.ge, hst₃⟩ hdefs' hcloses
    rw [helement.keeps.scope, helement.text] at hrest
    have hpasses := (helement.earlier hs.within hss₁).trans hrest
    rw [List.append_assoc, List.singleton_append] at hpasses
    exact hpasses

/--
At the end of a document no mistake has been reported exactly if the document is valid.
-/
theorem errors_eq_nil_iff_valid {document : Forest} (hs : s.Reachable)
    (hgr : s.grammar = some gr) (hv : s.validations[name]? = some (.create gr))
    (htakes : Takes name s (document.events ++ [.endDocument]) t)
    (hw : t.validations[name]? = some w) :
    w.errors = [] ↔
      document.Valid s.schema.graph.store s.schema.definitions gr.start := by
  have hstands : Stands name gr (.create gr) s := ⟨hs, hgr, hv⟩
  have hstart := (hs.sound.grammar gr hgr).1
  obtain ⟨t₁, v, ht₁, htakes, hpasses⟩ :=
    htakes.forest s.schema.graph.store s.schema.definitions document hstands
  obtain ⟨s₂, t₂, w', hts₂, hs₂, htake, _, ht₂, htakes⟩ := htakes.next ht₁
  obtain ⟨_, ht⟩ := htakes.nothing ht₂
  obtain rfl : w' = w := Option.some.inj (ht.validation.symm.trans hw)
  obtain ⟨_, _, _, hfinishes⟩ :=
    (Validation.endDocument_returns hs₂.reachable.sound.graph hs₂.vetted).ok _ _ htake
  have hfollows : (Validation.create gr).innermost.Follows s.schema.graph.store
      s.schema.definitions s.schema.graph.store s.schema.definitions [] []
      (s.schema.graph.store.language s.schema.definitions gr.start) fun _ => 0 :=
    ⟨fun _ => ⟨rfl, .ofContent ⟨le_rfl, le_rfl, hstands.within⟩ hstart, rfl⟩, fun h => absurd rfl h⟩
  have hdone := (hpasses.later ht₁.within hts₂).follows [] _ _ hfollows
  rw [(hfinishes hpasses.keeps.outer).follows _ _ _ _ _ hdone, Validation.unread_false, hpasses.text,
    hpasses.keeps.scope]
  unfold Forest.Valid
  rw [Language.mem_loose_iff_foldl, Forest.letters_eq, List.foldl_append]
  rfl

/--
A list with one entry, where there is blank text before the entry.
-/
theorem errors_eq_nil_iff_valid_entry :
    let entry : Forest := .element { name := ⟨"", "entry"⟩ } (.text "x" .nil) .nil
    let document : Forest := .element { name := ⟨"", "list"⟩ } (.text " " entry) .nil
    ∃ s t gr w, s.Reachable ∧ s.grammar = some gr ∧ s.validations["w"]? = some (.create gr) ∧
      Takes "w" s (document.events ++ [.endDocument]) t ∧ t.validations["w"]? = some w ∧
      w.errors = [] ∧ document.Valid s.schema.graph.store s.schema.definitions gr.start := by
  intro entry document
  let commands := (document.events ++ [Event.endDocument]).map (Command.take "w")
  obtain ⟨r, hr, hp⟩ := Reachable.of_leadsTo (fun _ => .string)
    [.createGrammar (.element (.only ⟨"", "list"⟩)
      (.oneOrMore (.element (.only ⟨"", "entry"⟩) .anyString)))]
    (fun r => r.grammar.isSome && match perform (.createValidation "w") r with
      | .ok (_, s) => match (run commands s).2 with
        | .ok t => t.validations["w"]?.any (·.errors.isEmpty)
        | .error _ => false
      | .error _ => false)
    (by simp [Command.isLawful]) (by decide +kernel)
  rw [Bool.and_eq_true, Option.isSome_iff_exists] at hp
  obtain ⟨⟨gr, hgr⟩, hp⟩ := hp
  have hcreate : perform (.createValidation "w") r = _ := perform_createValidation hgr
  have hs := hr.perform (c := .createValidation "w") rfl hcreate
  rw [hcreate] at hp
  dsimp only at hp
  split at hp
  . next t hrun =>
    obtain ⟨w, hw, herrors⟩ := (Option.any_eq_true _ _).1 hp
    have htakes := Takes.of_run (Prod.ext rfl hrun)
    have herrors : w.errors = [] := List.isEmpty_iff.1 herrors
    have hv : (r.validations.insert "w" (.create gr))["w"]? = some (.create gr) :=
      Std.TreeMap.getElem?_insert_self
    exact ⟨_, t, gr, w, hs, hgr, hv, htakes, hw, herrors,
      (errors_eq_nil_iff_valid hs hgr hv htakes hw).1 herrors⟩
  . cases hp

end Session

end TreeGrammar
