import TreeGrammar.Proofs.Document
import TreeGrammar.Proofs.Matching

/-!
This module contains how matchers are tracked: what a matcher accepts is put together from what has
been checked, and it is what the words read so far leave of the declarations that it follows,
however the schema has grown in the meantime.
-/

namespace TreeGrammar

open Relation

structure Grown (s : Store) (defs : Definitions) (t : Store) (defs' : Definitions) : Prop where
  store_le : s ≤ t
  defs_le : defs ≤ defs'
  within : defs.Within s

def Store.contentLanguage (s : Store) (defs : Definitions) (id : ExprId) : Language Letter :=
  match s.node id with
  | .element _ content => s.language defs content
  | _ => 0

/--
All that the matcher speaks of has been put together from expressions that are vetted.
-/
structure Matcher.IsVetted (s : Store) (defs : Definitions) (m : Matcher) : Prop where
  state : Made s (Vetted s defs) m.state
  slots : ∀ slot ∈ m.slots, slot.owner ∈ s ∧ Made s (Vetted s defs) slot.content

def Matcher.owners (m : Matcher) : List ExprId :=
  m.slots.map (·.owner)

theorem Matcher.Reads.owners {s t : Store} {defs : Definitions} {m m' : Matcher} {x : Letter}
    (h : Reads defs x s t m (some m')) : m'.owners = m.owners := by
  rcases h with hbecomes | ⟨rfl, -⟩
  . exact hbecomes.owners
  . rfl

/--
What the matcher accepts is `l`, and each of its declarations `y` accepts `ls y`. All of it has been
put together from what the earlier schema has been checked for.
-/
structure Matcher.Tracks (s : Store) (defs : Definitions) (t : Store) (defs' : Definitions)
    (m : Matcher) (l : Language Letter) (ls : ExprId → Language Letter) : Prop where
  grown : Grown s defs t defs'
  made : Made t (Vetted s defs) m.state
  slots_made : ∀ slot ∈ m.slots, Made t (Vetted s defs) slot.content
  language : t.language defs' m.state = l
  slots_language : ∀ slot ∈ m.slots, t.language defs' slot.content = ls slot.owner
  total : m.owners ≠ [] → ∀ w, w ∈ l ↔ ∃ y ∈ m.owners, w ∈ ls y

def Pointwise (op : Language Letter → Language Letter) : Prop :=
  ∀ l (ls : ExprId → Language Letter) (ys : List ExprId),
    (∀ w, w ∈ l ↔ ∃ y ∈ ys, w ∈ ls y) → ∀ w, w ∈ op l ↔ ∃ y ∈ ys, w ∈ op (ls y)

theorem pointwise_bare : Pointwise Language.bare := by
  intro l ls ys h w
  simp only [Language.mem_bare, h, ← and_assoc, exists_and_right]

theorem pointwise_advance (x : Letter) : Pointwise (Language.advance · x) := by
  intro l ls ys h w
  simp only [Language.mem_advance, h, and_or_left, exists_or, and_left_comm (b := x.isIgnorable = true),
    exists_and_left]

theorem pointwise_foldl_advance (w : List Letter) : Pointwise (w.foldl Language.advance ·) := by
  induction w with
  | nil => exact fun _ _ _ h => h
  | cons x w ih => exact fun l ls ys h => ih _ _ ys (pointwise_advance x l ls ys h)

namespace Grown

variable {s t u : Store} {defs defs' defs'' : Definitions} {id : ExprId}

theorem trans (h : Grown s defs t defs') (htu : t ≤ u) (hdefs : defs' ≤ defs'') :
    Grown s defs u defs'' :=
  ⟨le_trans h.store_le htu, le_trans h.defs_le hdefs, h.within⟩

theorem closed (h : Grown s defs t defs') : Closed t defs' (Vetted s defs) :=
  .vetted h.store_le h.defs_le h.within

theorem guarded (h : Grown s defs t defs') (hid : Made t (Vetted s defs) id) :
    Guarded t defs' id :=
  hid.guarded fun _ ha => ha.checked.guarded.of_le h.store_le h.defs_le h.within ha.mem

theorem mem (h : Grown s defs t defs') (hid : Made t (Vetted s defs) id) : id ∈ t :=
  hid.mem fun _ ha => Store.mem_of_le h.store_le ha.mem

theorem language_of_le (h : Grown s defs t defs') (hid : Made t (Vetted s defs) id)
    (hwithin : defs'.Within t) (htu : t ≤ u) (hdefs : defs' ≤ defs'') :
    u.language defs'' id = t.language defs' id :=
  (h.guarded hid).language_of_le htu hdefs hwithin (h.mem hid)

end Grown

section Vetted

variable {s t : Store} {defs defs' : Definitions} {base : ExprId → Prop} {m m' : Matcher}
variable {id a : ExprId} {name : Name}

theorem Closed.vetted_self (hwithin : defs.Within s) : Closed s defs (Vetted s defs) :=
  .vetted le_rfl le_rfl hwithin

theorem Made.vetted_of_le (h : Made s (Vetted s defs) id) (hst : s ≤ t) (hdefs : defs ≤ defs')
    (hwithin : defs.Within s) : Made t (Vetted t defs') id :=
  (h.of_le hst).mono fun _ ha => ha.of_le hst hdefs hwithin

theorem Composed.vetted (h : Composed defs s t [a] id) (ha : Made s (Vetted s defs) a)
    (hwithin : defs.Within s) (hst : s ≤ t) : Made t (Vetted t defs) id :=
  (h _ (.vetted_self hwithin) (by simpa using ha)).mono fun _ ha => ha.of_le hst le_rfl hwithin

theorem Made.base_of_opens (h : Made t base id) (hclosed : Closed t defs base)
    {y content : ExprId} {names : NameClass} (hopens : ReflTransGen (Opens t defs) y id)
    (hn : t.node y = .element names content) : base y := by
  have hmade (z : ExprId) (hz : ReflTransGen (Opens t defs) z id) : Made t base z := by
    induction hz using ReflTransGen.head_induction_on with
    | refl => exact h
    | head hopens _ ih => exact ih.part hclosed hopens.part
  have hne : y ≠ .nullSet := by
    rintro rfl
    simp at hn
  exact ((hmade y hopens).built hne).base_of_element hn

namespace Matcher

namespace IsVetted

theorem within (h : m.IsVetted s defs) : m.Within s where
  state := h.state.mem fun _ ha => ha.mem
  slots slot hslot := ⟨(h.slots slot hslot).1, (h.slots slot hslot).2.mem fun _ ha => ha.mem⟩

theorem isGuarded (h : m.IsVetted s defs) : m.IsGuarded s defs where
  state := h.state.guarded fun _ ha => ha.checked.guarded
  slots slot hslot := (h.slots slot hslot).2.guarded fun _ ha => ha.checked.guarded

theorem of_le (h : m.IsVetted s defs) (hst : s ≤ t) (hdefs : defs ≤ defs')
    (hwithin : defs.Within s) : m.IsVetted t defs' where
  state := h.state.vetted_of_le hst hdefs hwithin
  slots slot hslot := ⟨Store.mem_of_le hst (h.slots slot hslot).1,
    (h.slots slot hslot).2.vetted_of_le hst hdefs hwithin⟩

theorem ofContent (hid : Vetted s defs id) : (ofContent id).IsVetted s defs where
  state := Or.inr (.base hid)
  slots := by simp [Matcher.ofContent, Matcher.slots]

theorem becomes {rel : Store → ExprId → ExprId → Prop} (h : m.IsVetted s defs)
    (hwithin : defs.Within s) (hst : s ≤ t) (hm' : m.Becomes (Outcome defs rel s t) m') :
    m'.IsVetted t defs where
  state := hm'.state.composed.vetted h.state hwithin hst
  slots := by
    intro slot' hslot'
    obtain ⟨slot, hslot, howner, hcontent⟩ := hm'.exists_slot hslot'
    rw [howner]
    obtain ⟨hmem, hmade⟩ := h.slots slot hslot
    exact ⟨Store.mem_of_le hst hmem, hcontent.composed.vetted hmade hwithin hst⟩

theorem read {x : Letter} (h : m.IsVetted s defs) (hwithin : defs.Within s) (hst : s ≤ t)
    (hread : Reads defs x s t m (some m')) : m'.IsVetted t defs := by
  rcases hread with hbecomes | ⟨rfl, _⟩
  . exact h.becomes hwithin hst hbecomes
  . exact h.of_le hst le_rfl hwithin

theorem candidate (h : m.IsVetted s defs) (hwithin : defs.Within s) {slot : Slot}
    (hslot : IsCandidate s defs name m.state slot) :
    slot.owner ∈ s ∧ Vetted s defs slot.content := by
  obtain ⟨names, hn, hopens, _⟩ := hslot
  have howner := h.state.base_of_opens (.vetted_self hwithin) hopens hn
  exact ⟨howner.mem, howner.content hn⟩

theorem joins {found : List Slot} (h : m.IsVetted s defs) (hwithin : defs.Within s) (hst : s ≤ t)
    (hfound : ∀ slot ∈ found, IsCandidate s defs name m.state slot)
    (hm' : Joins defs s t found m') : m'.IsVetted t defs where
  state := by
    refine (hm'.composed _ (.vetted_self hwithin) ?_).mono fun _ ha => ha.of_le hst le_rfl hwithin
    intro a ha
    obtain ⟨slot, hslot, rfl⟩ := List.mem_map.1 ha
    exact Or.inr (.base (h.candidate hwithin (hfound slot hslot)).2)
  slots := by
    rw [hm'.slots]
    intro slot hslot
    obtain ⟨howner, hcontent⟩ := h.candidate hwithin (hfound slot hslot)
    exact ⟨Store.mem_of_le hst howner, Or.inr (.base (hcontent.of_le hst le_rfl hwithin))⟩

end IsVetted

end Matcher

end Vetted

namespace Matcher

variable {s t u : Store} {defs defs' defs'' : Definitions} {m m' : Matcher}
variable {l : Language Letter} {ls : ExprId → Language Letter} {x : Letter}

namespace Tracks

theorem isGuarded (h : m.Tracks s defs t defs' l ls) : m.IsGuarded t defs' where
  state := h.grown.guarded h.made
  slots slot hslot := h.grown.guarded (h.slots_made slot hslot)

theorem of_le (h : m.Tracks s defs t defs' l ls) (hwithin : defs'.Within t) (htu : t ≤ u)
    (hdefs : defs' ≤ defs'') : m.Tracks s defs u defs'' l ls where
  grown := h.grown.trans htu hdefs
  made := h.made.of_le htu
  slots_made slot hslot := (h.slots_made slot hslot).of_le htu
  language := (h.grown.language_of_le h.made hwithin htu hdefs).trans h.language
  slots_language := by
    intro slot hslot
    rw [← h.slots_language slot hslot]
    exact h.grown.language_of_le (h.slots_made slot hslot) hwithin htu hdefs
  total := h.total

theorem becomes {op : Language Letter → Language Letter}
    {rel : Store → ExprId → ExprId → Prop} (h : m.Tracks s defs t defs' l ls)
    (hwithin : defs'.Within t) (htu : t ≤ u) (hop : Pointwise op)
    (hrel : ∀ a b, rel u a b → u.language defs' b = op (u.language defs' a))
    (hm' : m.Becomes (Outcome defs' rel t u) m') :
    m'.Tracks s defs u defs' (op l) fun y => op (ls y) where
  grown := h.grown.trans htu le_rfl
  made := hm'.state.composed _ h.grown.closed (by simpa using h.made)
  slots_made := by
    intro slot' hslot'
    obtain ⟨slot, hslot, _, hcontent⟩ := hm'.exists_slot hslot'
    exact hcontent.composed _ h.grown.closed (by simpa using h.slots_made slot hslot)
  language := by
    rw [hrel _ _ (hm'.state.related u le_rfl), (h.of_le hwithin htu le_rfl).language]
  slots_language := by
    intro slot' hslot'
    obtain ⟨slot, hslot, howner, hcontent⟩ := hm'.exists_slot hslot'
    rw [hrel _ _ (hcontent.related u le_rfl), howner,
      (h.of_le hwithin htu le_rfl).slots_language slot hslot]
  total := by
    unfold owners
    rw [hm'.owners]
    intro howners
    exact hop l ls _ (h.total howners)

theorem read (h : m.Tracks s defs t defs' l ls) (hwithin : defs'.Within t) (htu : t ≤ u)
    (hread : Reads defs' x t u m (some m')) :
    m'.Tracks s defs u defs' (Language.advance l x) (fun y => Language.advance (ls y) x) ∧
      m'.owners = m.owners := by
  rcases hread with hbecomes | ⟨rfl, hignorable, hquotient⟩
  . exact ⟨h.becomes hwithin htu (pointwise_advance x) (fun _ _ hrel => hrel) hbecomes,
      hbecomes.owners⟩
  . -- neither the whole nor any of its declarations can go on with the text
    have hu := h.of_le hwithin htu le_rfl
    have hnot (w : List Letter) : x :: w ∉ l := by
      have hzero := hquotient u le_rfl
      rw [hu.language] at hzero
      intro hw
      rw [show x :: w = [x] ++ w from rfl, ← Language.mem_leftQuotient, hzero] at hw
      exact Language.notMem_zero w hw
    have hl : Language.advance l x = l := by
      ext w
      rw [Language.mem_advance, or_iff_left (hnot w), and_iff_right hignorable]
    refine ⟨⟨hu.grown, hu.made, hu.slots_made, hu.language.trans hl.symm, ?_, ?_⟩, rfl⟩
    . intro slot hslot
      have howner : slot.owner ∈ m'.owners := List.mem_map_of_mem hslot
      rw [hu.slots_language slot hslot]
      ext w
      rw [Language.mem_advance, and_iff_right hignorable, or_iff_left]
      intro hw
      exact hnot w ((h.total (List.ne_nil_of_mem howner) _).2 ⟨slot.owner, howner, hw⟩)
    . intro howners
      exact pointwise_advance x l ls _ (h.total howners)

theorem not_read (h : m.Tracks s defs t defs' l ls) (hwithin : defs'.Within t) (htu : t ≤ u)
    (hread : Reads defs' x t u m none) : Language.advance l x = 0 := by
  rw [← (h.of_le hwithin htu le_rfl).language]
  exact hread u le_rfl

theorem ends (h : m.Tracks s defs t defs' l ls) (hwithin : defs'.Within t) (htu : t ≤ u)
    (hends : Ends defs' t u m (some m')) :
    m'.Tracks s defs u defs' (Language.bare l) (fun y => Language.bare (ls y)) ∧
      m'.owners = m.owners :=
  ⟨h.becomes hwithin htu pointwise_bare (fun _ _ hrel => hrel h.isGuarded) hends, hends.owners⟩

theorem not_ends (h : m.Tracks s defs t defs' l ls) (hwithin : defs'.Within t) (htu : t ≤ u)
    (hends : Ends defs' t u m none) : Language.bare l = 0 := by
  rw [← (h.of_le hwithin htu le_rfl).language]
  exact hends u le_rfl h.isGuarded

theorem congr {l' : Language Letter} {ls' : ExprId → Language Letter}
    (h : m.Tracks s defs t defs' l ls) (hl : l = l') (hls : ∀ y ∈ m.owners, ls y = ls' y) :
    m.Tracks s defs t defs' l' ls' where
  grown := h.grown
  made := h.made
  slots_made := h.slots_made
  language := h.language.trans hl
  slots_language slot hslot :=
    (h.slots_language slot hslot).trans (hls slot.owner (List.mem_map_of_mem hslot))
  total := by
    intro howners w
    rw [← hl, h.total howners]
    exact exists_congr fun y => and_congr_right fun hy => by rw [hls y hy]

end Tracks

end Matcher

def Store.Allows (s : Store) (name : Name) (id : ExprId) : Prop :=
  ∃ names content, s.node id = .element names content ∧ names.contains name

/--
A child that comes first in a word of the language is read by one declaration, which is in `ys` if
it is one of those allowed, and it matters only that the child satisfies this declaration.
-/
def Heeds (l : Language Letter) (allowed : ExprId → Prop) (ys : List ExprId) : Prop :=
  ∀ (p : ExprId → Prop) (w : List Letter), .element p :: w ∈ l →
    ∃ y, p y ∧ (allowed y → y ∈ ys) ∧ ∀ q : ExprId → Prop, q y → .element q :: w ∈ l

namespace Heeds

variable {l : Language Letter} {allowed p q : ExprId → Prop} {ys : List ExprId}

theorem zero : Heeds 0 allowed ys :=
  fun _ _ hw => absurd hw (Language.notMem_zero _)

theorem advance_eq (h : Heeds l allowed ys) (hp : ∀ y, p y → allowed y) (hq : ∀ y, q y → y ∈ ys)
    (hpq : ∀ y ∈ ys, p y ↔ q y) :
    Language.advance l (.element p) = Language.advance l (.element q) := by
  ext w
  simp only [Language.mem_advance, Letter.isIgnorable, Bool.false_eq_true, false_and, false_or]
  constructor
  . intro hw
    obtain ⟨y, hy, hmem, hall⟩ := h p w hw
    exact hall q ((hpq y (hmem (hp y hy))).1 hy)
  . intro hw
    obtain ⟨y, hy, _, hall⟩ := h q w hw
    exact hall p ((hpq y (hq y hy)).2 hy)

theorem advance_eq_zero (h : Heeds l allowed ys) (hp : ∀ y, ¬ p y) :
    Language.advance l (.element p) = 0 := by
  ext w
  simp only [Language.mem_advance, Letter.isIgnorable, Bool.false_eq_true, false_and, false_or]
  refine iff_of_false ?_ (Language.notMem_zero w)
  intro hw
  obtain ⟨y, hy, _⟩ := h p w hw
  exact hp y hy

end Heeds

section Children

variable {s t u : Store} {defs defs' : Definitions} {m m' : Matcher} {name : Name}
variable {l : Language Letter} {ls : ExprId → Language Letter} {found : List Slot}

namespace Matcher

namespace Tracks

theorem ofContent {id : ExprId} (h : Grown s defs t defs') (hid : Vetted s defs id) :
    (ofContent id).Tracks s defs t defs' (s.language defs id) ls where
  grown := h
  made := Or.inr (.base hid)
  slots_made := by simp [Matcher.ofContent, slots]
  language := hid.checked.guarded.language_of_le h.store_le h.defs_le h.within hid.mem
  slots_language := by simp [Matcher.ofContent, slots]
  total := by simp [Matcher.ofContent, owners, slots]

theorem vetted_of_opens (h : m.Tracks s defs t defs' l ls) {y content : ExprId} {names : NameClass}
    (hopens : ReflTransGen (Opens t defs') y m.state) (hn : t.node y = .element names content) :
    Vetted s defs y ∧ s.node y = .element names content := by
  have hy := h.made.base_of_opens h.grown.closed hopens hn
  rw [Store.node_of_le h.grown.store_le hy.mem] at hn
  exact ⟨hy, hn⟩

theorem vetted_of_isCandidate (h : m.Tracks s defs t defs' l ls) {slot : Slot}
    (hslot : IsCandidate t defs' name m.state slot) :
    s.Allows name slot.owner ∧ Vetted s defs slot.content ∧
      s.contentLanguage defs slot.owner = s.language defs slot.content := by
  obtain ⟨names, hn, hopens, hname⟩ := hslot
  obtain ⟨hvetted, hn⟩ := h.vetted_of_opens hopens hn
  refine ⟨⟨names, slot.content, hn, hname⟩, hvetted.content hn, ?_⟩
  unfold Store.contentLanguage
  rw [hn]

theorem heeds (h : m.Tracks s defs t defs' l ls) {ys : List ExprId}
    (hys : ∀ slot, IsCandidate t defs' name m.state slot → slot.owner ∈ ys) :
    Heeds l (s.Allows name) ys := by
  intro p w hw
  rw [← h.language] at hw ⊢
  obtain ⟨y, names, content, hopens, hn, hy, hall⟩ := Matches.readsFirst hw
  refine ⟨y, hy, ?_, hall⟩
  rintro ⟨_, _, hn', hname⟩
  rw [(h.vetted_of_opens hopens hn).2] at hn'
  cases hn'
  exact hys ⟨y, content⟩ ⟨names, hn, hopens, hname⟩

theorem heeds_of_mem_owners (h : m.Tracks s defs t defs' l ls) {allowed : ExprId → Prop}
    {ys : List ExprId} (hl : Heeds l allowed ys) {owner : ExprId} (howner : owner ∈ m.owners) :
    Heeds (ls owner) allowed ys := by
  obtain ⟨slot, hslot, rfl⟩ := List.mem_map.1 howner
  intro p w hw
  rw [← h.slots_language slot hslot] at hw
  obtain ⟨y, _, _, _, _, hy, hall⟩ := Matches.readsFirst hw
  have hls (q : ExprId → Prop) (hq : q y) : .element q :: w ∈ ls slot.owner := by
    rw [← h.slots_language slot hslot]
    exact hall q hq
  refine ⟨y, hy, ?_, hls⟩
  have hsingle := (h.total (List.ne_nil_of_mem howner) _).2 ⟨_, howner, hls (· = y) rfl⟩
  obtain ⟨z, rfl, hz, _⟩ := hl _ w hsingle
  exact hz

theorem joins (h : m.Tracks s defs t defs' l ls) (htu : t ≤ u)
    (hfound : ∀ slot ∈ found, IsCandidate t defs' name m.state slot)
    (hm' : Joins defs' t u found m') :
    m'.Tracks s defs u defs' (u.language defs' m'.state) (s.contentLanguage defs) := by
  have hgrown := h.grown.trans htu le_rfl
  have hcontent {slot : Slot} (hslot : slot ∈ found) :
      Vetted s defs slot.content ∧
        u.language defs' slot.content = s.contentLanguage defs slot.owner := by
    obtain ⟨_, hvetted, hlanguage⟩ := h.vetted_of_isCandidate (hfound slot hslot)
    rw [hlanguage]
    exact ⟨hvetted, hvetted.checked.guarded.language_of_le hgrown.store_le hgrown.defs_le
      hgrown.within hvetted.mem⟩
  have hslots := hm'.slots
  refine ⟨hgrown, ?_, ?_, rfl, ?_, ?_⟩
  . refine hm'.composed _ h.grown.closed ?_
    intro a ha
    obtain ⟨slot, hslot, rfl⟩ := List.mem_map.1 ha
    exact Or.inr (.base (hcontent hslot).1)
  . intro slot hslot
    rw [hslots] at hslot
    exact Or.inr (.base (hcontent hslot).1)
  . intro slot hslot
    rw [hslots] at hslot
    exact (hcontent hslot).2
  . intro _ w
    unfold owners
    rw [hm'.language u le_rfl, hslots]
    simp only [List.mem_map, exists_exists_and_eq_and]
    refine exists_congr fun slot => and_congr_right fun hslot => ?_
    rw [(hcontent hslot).2]

theorem letter_eq (h : m.Tracks s defs t defs' l ls) (howners : m.owners ≠ []) (hnil : [] ∈ l) :
    m.letter t defs' false = .element fun y => y ∈ m.owners ∧ [] ∈ ls y := by
  cases m with
  | single state owner =>
    cases owner with
    | none => exact absurd rfl howners
    | some owner =>
      obtain ⟨y, hy, hnil⟩ := (h.total howners []).1 hnil
      obtain rfl : y = owner := by simpa [owners, slots] using hy
      refine congrArg Letter.element (funext fun z => propext ?_)
      simp only [owners, slots, List.map_cons, List.map_nil, List.mem_singleton]
      exact ⟨fun hz => ⟨hz, hz ▸ hnil⟩, And.left⟩
  | several state slots =>
    refine congrArg Letter.element (funext fun y => propext ?_)
    constructor
    . rintro ⟨slot, hslot, rfl, hempty⟩
      refine ⟨List.mem_map_of_mem hslot, ?_⟩
      rw [← h.slots_language slot hslot]
      simpa using hempty
    . rintro ⟨hy, hempty⟩
      obtain ⟨slot, hslot, rfl⟩ := List.mem_map.1 hy
      refine ⟨slot, hslot, rfl, Or.inr ?_⟩
      rw [h.slots_language slot hslot]
      exact hempty

end Tracks

end Matcher

end Children

end TreeGrammar
