import TreeGrammar.Proofs.Runs

/-!
This module contains the correctness of reading with matchers: the matcher of a checked expression
reads a word and accepts in the end exactly if the word is in the language of the expression, where
blank text can be dropped.
-/

namespace TreeGrammar

namespace Session

def letter? (s : Session) (name : String) : Command → Option Letter
  | .readText m literal scope _ => if m = name then some (.text literal scope) else none
  | .readAttribute m label value scope =>
    if m = name then some (.attribute label value scope) else none
  | .readChild parent child recovering =>
    if parent = name then
      s.matchers[child]?.map (·.letter s.schema.graph.store s.schema.definitions recovering)
    else none
  | _ => none

/--
If the request has a child read, all that the child may have to read next is guarded.
-/
def ReadsGuarded (s : Session) : Command → Prop
  | .readChild _ child _ => ∀ m, s.matchers[child]? = some m →
    m.IsGuarded s.schema.graph.store s.schema.definitions
  | _ => True

/--
Requests are carried out one after the other. The word is what they have the matcher of the name
read, and `fit` tells whether all of it fitted. They do nothing else to the matcher.
-/
inductive Follows (name : String) : Session → List Letter → Bool → Session → Prop where
  | nil {s} : Follows name s [] true s
  | aside {s t u c answer word fit} : c.isLawful → ¬ c.Replaces name →
    perform c s = .ok (answer, t) → Follows name t word fit u → Follows name s word fit u
  | read {s t u c x answer word fit} : s.letter? name c = some x →
    perform c s = .ok (answer, t) → Follows name t word fit u →
    Follows name s (x :: word) (answer.fits && fit) u

variable {s t u : Session} {name : String} {c : Command} {x : Letter} {answer : Answer}
variable {word : List Letter} {fit : Bool} {id : ExprId} {m : Matcher} {neutral : Prop}

theorem isLawful_of_letter? (h : s.letter? name c = some x) : c.isLawful := by
  cases c with
  | remember => cases h
  | _ => rfl

def Vets (s : Session) (name : String) : Prop :=
  ∃ m, s.matchers[name]? = some m ∧ m.IsVetted s.schema.graph.store s.schema.definitions

theorem reading_returns {P : Matcher → Option Matcher → Graph → Prop} (hs : s.Sound)
    (hm : s.matchers[name]? = some m) (hx : s.letter? name c = some x)
    (hread : ∀ token g, s.schema.graph ≤ g → g.Sound s.schema.definitions → token.letter = x →
      Graph.Returns s.schema.definitions g (m.read? s.schema.definitions token)
        (Fault.Admissible True) fun r h => P m (r.map (·.1)) h)
    (hnext : ∀ m' g, s.schema.graph ≤ g → P m (some m') g → m'.Within g.store) :
    Returns neutral s (perform c) (Fault.Admissible (s.ReadsGuarded c)) (Advances name P s) := by
  have hunique {m' : Matcher} (hm' : s.matchers[name]? = some m') : m' = m :=
    Option.some.inj (hm'.symm.trans hm)
  have hwithin (m' r : Matcher) (g : Graph) (hm' : s.matchers[name]? = some m')
      (hg : s.schema.graph ≤ g) (hP : P m' (some r) g) : r.Within g.store := by
    rw [hunique hm'] at hP
    exact hnext r g hg hP
  cases c with
  | readText name' literal scope previous =>
    obtain ⟨rfl, rfl⟩ : name' = name ∧ Letter.text literal scope = x := by
      simpa [letter?] using hx
    refine readText_returns hs ?_ hwithin
    intro m' hm'
    rw [hunique hm']
    exact (hread (.text literal scope) _ le_rfl hs.graph rfl).admissible fun _ => trivial
  | readAttribute name' label value scope =>
    obtain ⟨rfl, rfl⟩ : name' = name ∧ Letter.attribute label value scope = x := by
      simpa [letter?] using hx
    refine advance_returns hs ?_ hwithin
    intro m' hm'
    rw [hunique hm']
    refine Graph.Returns.bind ((hread (.attribute label value scope) _ le_rfl hs.graph
      rfl).admissible fun _ => trivial) ?_
    exact fun _ _ _ hh hP => .pure hh hP
  | readChild name' child recovering =>
    obtain ⟨rfl, m', hm', rfl⟩ : name' = name ∧ ∃ m', s.matchers[child]? = some m' ∧
        m'.letter s.schema.graph.store s.schema.definitions recovering = x := by
      simpa [letter?] using hx
    refine Returns.bind (matcherNamed_returns hs) ?_
    rintro r _ _ hs ⟨rfl, hr⟩
    obtain rfl : r = m' := Option.some.inj (hr.symm.trans hm')
    refine advance_returns hs ?_ hwithin
    intro m'' hm''
    rw [hunique hm'']
    have htoken : Graph.Returns _ _ (r.token _ recovering) _ _ :=
      Matcher.token_returns hs.graph (hs.matchers child r hr)
    refine Graph.Returns.bind (htoken.admissible fun hguarded => hguarded r hr) ?_
    intro token g hg hgSound htoken
    refine Graph.Returns.bind ((hread token g hg hgSound htoken).admissible fun _ => trivial) ?_
    exact fun _ _ _ hh hP => .pure hh hP
  | _ => cases hx

theorem read_returns (hs : s.Sound) (hvets : s.Vets name) (hx : s.letter? name c = some x) :
    Returns neutral s (perform c) (Fault.Admissible (s.ReadsGuarded c))
      (Advances name (fun m m? g =>
        m.Reads s.schema.definitions x s.schema.graph.store g.store m?) s) := by
  obtain ⟨m, hm, hvetted⟩ := hvets
  refine reading_returns hs hm hx ?_ ?_
  . intro token g hg hgSound htoken
    have hm := hvetted.of_le (Graph.store_le hg) le_rfl hs.graph.within
    refine ((Matcher.read?_returns token htoken hgSound hm.within).admissible
      fun _ => hm.isGuarded).mono (fun _ hf => hf) ?_
    exact fun _ _ _ _ hread => hread.of_ge (Graph.store_le hg)
  . intro m' g hg hread
    exact (hvetted.read hs.graph.within (Graph.store_le hg) hread).within

theorem advances_of_perform (hs : s.Sound) (hvets : s.Vets name) (hx : s.letter? name c = some x)
    (hperform : perform c s = .ok (answer, t)) : s.schema ≤ t.schema ∧ t.Sound ∧
      Advances name (fun m m? g =>
        m.Reads s.schema.definitions x s.schema.graph.store g.store m?) s answer t := by
  have hread : Returns True s (perform c) _ _ := read_returns hs hvets hx
  exact hread.ok answer t hperform

theorem Vets.read (hs : s.Sound) (hvets : s.Vets name) (hx : s.letter? name c = some x)
    (hperform : perform c s = .ok (answer, t)) : t.Vets name := by
  obtain ⟨hst, _, hadvances⟩ := advances_of_perform hs hvets hx hperform
  obtain ⟨m, hm, hvetted⟩ := hvets
  obtain ⟨m', m?, hm', hread, _, hname⟩ := hadvances.read
  obtain rfl : m' = m := Option.some.inj (hm'.symm.trans hm)
  refine ⟨_, hname, ?_⟩
  rw [hadvances.definitions]
  cases m? with
  | none => exact hvetted.of_le (Graph.store_le hst.2) le_rfl hs.graph.within
  | some r => exact hvetted.read hs.graph.within (Graph.store_le hst.2) hread

theorem matchers_of_not_replaces (hs : s.Sound) (hc : c.isLawful) (hname : ¬ c.Replaces name)
    (hperform : perform c s = .ok (answer, t)) :
    s.schema ≤ t.schema ∧ t.matchers[name]? = s.matchers[name]? := by
  obtain ⟨hst, _, halters⟩ := (perform_returns c hc hs).ok _ _ hperform
  exact ⟨hst, halters.matchers name hname⟩

theorem Vets.aside (hs : s.Sound) (hvets : s.Vets name) (hc : c.isLawful)
    (hname : ¬ c.Replaces name) (hperform : perform c s = .ok (answer, t)) : t.Vets name := by
  obtain ⟨m, hm, hvetted⟩ := hvets
  obtain ⟨hst, hsame⟩ := matchers_of_not_replaces hs hc hname hperform
  exact ⟨m, hsame.trans hm, hvetted.of_le (Graph.store_le hst.2) hst.1 hs.graph.within⟩

theorem Follows.vets (h : Follows name s word fit t) (hs : s.Reachable) (hvets : s.Vets name) :
    t.Reachable ∧ t.Vets name := by
  induction h with
  | nil => exact ⟨hs, hvets⟩
  | aside hc hname hperform _ ih =>
    exact ih (hs.perform hc hperform) (hvets.aside hs.sound hc hname hperform)
  | read hx hperform _ ih =>
    exact ih (hs.perform (isLawful_of_letter? hx) hperform) (hvets.read hs.sound hx hperform)

/--
As long as everything fits, what the matcher accepts is what the word leaves of the language. Where
something has not fitted, the word leaves nothing.
-/
theorem Follows.tracks {s₀ : Store} {defs₀ : Definitions} {l : Language Letter}
    {ls : ExprId → Language Letter} (h : Follows name s word fit t) (hs : s.Reachable)
    (hvets : s.Vets name) (hm : s.matchers[name]? = some m)
    (htracks : m.Tracks s₀ defs₀ s.schema.graph.store s.schema.definitions l ls) :
    (fit = true → ∃ m', t.matchers[name]? = some m' ∧
      t.schema.graph.store.language t.schema.definitions m'.state =
        word.foldl Language.advance l) ∧
      (fit = false → word.foldl Language.advance l = 0) := by
  induction h generalizing m l ls with
  | nil =>
    refine ⟨fun _ => ⟨m, hm, htracks.language⟩, ?_⟩
    rintro ⟨⟩
  | aside hc hname hperform _ ih =>
    obtain ⟨hst, hsame⟩ := matchers_of_not_replaces hs.sound hc hname hperform
    exact ih (hs.perform hc hperform) (hvets.aside hs.sound hc hname hperform) (hsame.trans hm)
      (htracks.of_le hs.sound.graph.within (Graph.store_le hst.2) hst.1)
  | read hx hperform _ ih =>
    have hwithin := hs.sound.graph.within
    obtain ⟨hst, ht, hadvances⟩ := advances_of_perform hs.sound hvets hx hperform
    obtain ⟨m', m?, hm', hread, hfits, hname⟩ := hadvances.read
    obtain rfl : m' = m := Option.some.inj (hm'.symm.trans hm)
    rw [List.foldl_cons, hfits]
    cases m? with
    | none =>
      have hzero := htracks.not_read hwithin (Graph.store_le hst.2) hread
      rw [hzero, Language.foldl_advance_zero]
      exact ⟨by simp, fun _ => rfl⟩
    | some r =>
      obtain ⟨hrTracks, _⟩ := htracks.read hwithin (Graph.store_le hst.2) hread
      rw [← hadvances.definitions] at hrTracks
      rw [Option.isSome_some, Bool.true_and]
      exact ih (hs.perform (isLawful_of_letter? hx) hperform) (hvets.read hs.sound hx hperform)
        hname hrTracks

theorem isAccepting_apply (hm : s.matchers[name]? = some m) : perform (.isAccepting name) s =
    (onGraph (fun defs => m.isAccepting defs) s).bind fun p => .ok (.accepting p.1, p.2) := by
  have hrun : perform (.isAccepting name) s = (matcherNamed name >>= fun m =>
      onGraph (fun defs => m.isAccepting defs) >>= fun b => pure (.accepting b)) s := rfl
  rw [hrun, bind_apply, matcherNamed_apply hm]
  rfl

theorem perform_isAccepting_of_isGuarded (hs : s.Sound) (hm : s.matchers[name]? = some m)
    (hguarded : m.IsGuarded s.schema.graph.store s.schema.definitions) :
    (∀ h, perform (.isAccepting name) s = .error h → ∃ limit, h = .fault (.limitExceeded limit)) ∧
      ∀ accepting t, perform (.isAccepting name) s = .ok (.accepting accepting, t) →
        (accepting = true ↔
          [] ∈ s.schema.graph.store.language s.schema.definitions m.state) := by
  have hask : Returns True s (onGraph fun defs => m.isAccepting defs) (Fault.Admissible True)
      fun b t => s.Extends t ∧ (b = true ↔
        [] ∈ s.schema.graph.store.language s.schema.definitions m.state) :=
    (isAccepting_returns hs (hs.matchers name m hm)).mono
      (fun _ hf => hf.mono fun _ => hguarded.state) fun _ _ _ _ h => h
  rw [isAccepting_apply hm]
  cases hrun : onGraph (fun defs => m.isAccepting defs) s with
  | error h =>
    refine ⟨?_, by rintro accepting t ⟨⟩⟩
    rintro _ ⟨⟩
    obtain ⟨f, rfl⟩ := exists_fault_of_onGraph hrun
    obtain ⟨limit, rfl⟩ := (hask.error f hrun).exists_limit
    exact ⟨limit, rfl⟩
  | ok p =>
    refine ⟨by rintro h ⟨⟩, ?_⟩
    rintro accepting t ⟨⟩
    exact (hask.ok _ _ hrun).2.2.2

theorem perform_isAccepting (hs : s.Sound) (hm : s.matchers[name]? = some m)
    (hvetted : m.IsVetted s.schema.graph.store s.schema.definitions) :
    (∀ h, perform (.isAccepting name) s = .error h → ∃ limit, h = .fault (.limitExceeded limit)) ∧
      ∀ accepting t, perform (.isAccepting name) s = .ok (.accepting accepting, t) →
        (accepting = true ↔
          [] ∈ s.schema.graph.store.language s.schema.definitions m.state) :=
  perform_isAccepting_of_isGuarded hs hm hvetted.isGuarded

/--
The matcher of a checked expression reads a word and accepts in the end exactly if the word is in
the language of the expression, where blank text can be dropped. Apart from the limit, there is no
fault in that unless a child can not be told what it satisfies.
-/
theorem follows_and_accepts_iff (hs : s.Reachable) (hm : s.matchers[name]? = some (.ofContent id))
    (hcheck : s.schema.check id = .ok ()) (hfollows : Follows name s word fit t) :
    (∀ c f, (t.letter? name c).isSome → perform c t = .error (.fault f) →
      f.Admissible (t.ReadsGuarded c)) ∧
    (∀ h, perform (.isAccepting name) t = .error h → ∃ limit, h = .fault (.limitExceeded limit)) ∧
    ∀ accepting u, perform (.isAccepting name) t = .ok (.accepting accepting, u) →
      (fit = true ∧ accepting = true ↔
        word ∈ Language.loose (s.schema.graph.store.language s.schema.definitions id)) := by
  have hwithin := hs.sound.graph.within
  have hid : id ∈ s.schema.graph.store := (hs.sound.matchers name _ hm).state
  have hvetted : Vetted s.schema.graph.store s.schema.definitions id :=
    ⟨hid, Schema.check_ok hcheck⟩
  have hvets : s.Vets name := ⟨_, hm, .ofContent hvetted⟩
  obtain ⟨ht, m, hmt, hmVetted⟩ := hfollows.vets hs hvets
  obtain ⟨herror, haccepting⟩ := perform_isAccepting ht.sound hmt hmVetted
  have htracks : (Matcher.ofContent id).Tracks s.schema.graph.store s.schema.definitions
      s.schema.graph.store s.schema.definitions
      (s.schema.graph.store.language s.schema.definitions id) fun _ => 0 :=
    .ofContent ⟨le_rfl, le_rfl, hwithin⟩ hvetted
  obtain ⟨hfit, hmisfit⟩ := hfollows.tracks hs hvets hm htracks
  refine ⟨?_, herror, ?_⟩
  . intro c f hletter hperform
    obtain ⟨x, hx⟩ := Option.isSome_iff_exists.1 hletter
    have hread : Returns True t (perform c) _ _ := read_returns ht.sound ⟨m, hmt, hmVetted⟩ hx
    exact hread.error f hperform
  . intro accepting u hperform
    rw [haccepting accepting u hperform, Language.mem_loose_iff_foldl]
    cases fit with
    | false =>
      rw [hmisfit rfl]
      exact iff_of_false (by simp) (Language.notMem_zero _)
    | true =>
      obtain ⟨m', hm', hlanguage⟩ := hfit rfl
      obtain rfl : m' = m := Option.some.inj (hm'.symm.trans hmt)
      rw [hlanguage, and_iff_right rfl]

/--
An attribute is read and then a child about which nothing is known.
-/
theorem follows_and_accepts_attribute_child :
    let word : List Letter := [.attribute ⟨"", "a"⟩ "1" [], .element fun _ => True]
    ∃ s t id u, s.Reachable ∧ s.matchers["m"]? = some (.ofContent id) ∧
      s.schema.check id = .ok () ∧ Follows "m" s word true t ∧
      perform (.isAccepting "m") t = .ok (.accepting true, u) ∧
      word ∈ Language.loose (s.schema.graph.store.language s.schema.definitions id) := by
  intro word
  let content : Term := .sequence (.attribute (.only ⟨"", "a"⟩) .anyString) (.element .any .epsilon)
  obtain ⟨s, hs, hp⟩ := Reachable.of_leadsTo (fun _ => .string)
    [.createMatcher "m" content, .createMatcher "c" .epsilon]
    (fun s => s.matchers["m"]?.any fun m => m = .ofContent m.state &&
      s.schema.check m.state = .ok () &&
      yields (.readAttribute "m" ⟨"", "a"⟩ "1" []) s fun a t => a.fits &&
        t.matchers["c"]? = some (.ofContent .epsilon) &&
        yields (.readChild "m" "c" false) t fun b u => b.fits &&
          yields (.isAccepting "m") u fun shown v => shown = .accepting true)
    (by simp [Command.isLawful]) (by decide +kernel)
  obtain ⟨m, hm, hp⟩ := (Option.any_eq_true _ _).1 hp
  simp only [yields_iff, Bool.and_eq_true, decide_eq_true_eq] at hp
  obtain ⟨⟨hcontent, hcheck⟩, a, t, hread, ⟨ha, hchild⟩, b, u, hchildRead, hb, _, v, hshow, rfl⟩ := hp
  rw [hcontent] at hm
  have hletter : t.letter? "m" (.readChild "m" "c" false) = some (.element fun _ => True) := by
    simp [letter?, hchild, Matcher.letter, Matcher.ofContent]
  have hfollows : Follows "m" s word (a.fits && (b.fits && true)) u :=
    .read rfl hread (.read hletter hchildRead .nil)
  rw [ha, hb] at hfollows
  obtain ⟨_, _, hiff⟩ := follows_and_accepts_iff hs hm hcheck hfollows
  exact ⟨s, u, m.state, v, hs, hm, hcheck, hfollows, hshow, (hiff true v hshow).1 ⟨rfl, rfl⟩⟩

end Session

end TreeGrammar
