import TreeGrammar.Proofs.Runs

/-!
This module contains the faults that the events of a document can raise. Apart from the limit there is
one, which a start tag raises if it lacks attributes where the null set is exposed.
-/

namespace TreeGrammar

namespace Session

variable {s : Session} {name : String} {event : Event} {gr : Grammar} {v : Validation}

theorem perform_createValidation (hgr : s.grammar = some gr) :
    perform (.createValidation name) s =
      .ok (.done, { s with validations := s.validations.insert name (.create gr) }) := by
  have hperform : perform (.createValidation name) s =
      (theGrammar >>= fun gr => putValidation name (.create gr) >>= fun _ => pure .done) s := rfl
  rw [hperform, bind_apply, theGrammar_apply hgr]
  rfl

theorem perform_take (hgr : s.grammar = some gr) (hv : s.validations[name]? = some v) :
    perform (.take name event) s = match v.take gr s.schema.definitions event s.schema.graph with
      | .ok (v', graph) => .ok (.progress (v'.errorsSince v) v'.depth,
        { s with
          schema := { s.schema with graph }
          validations := s.validations.insert name v' })
      | .error f => .error (.fault f) := by
  have hperform : perform (.take name event) s = take name event s := rfl
  unfold take at hperform
  rw [hperform, bind_apply, theGrammar_apply hgr, Except.bind, bind_apply, validationNamed_apply hv,
    Except.bind, bind_apply, onGraph_apply]
  cases v.take gr s.schema.definitions event s.schema.graph <;> rfl

/--
The limit apart, an event ends the session exactly if it is a start tag that lacks attributes where
the null set is exposed.
-/
theorem perform_take_fails_iff (hs : s.Reachable) (hgr : s.grammar = some gr)
    (hv : s.validations[name]? = some v) :
    (∀ h, perform (.take name event) s = .error h →
      (∃ limit, h = .fault (.limitExceeded limit)) ∨
        h = .fault .attributesOfNullSet ∧
          v.Undescribable gr s.schema.definitions s.schema.graph event) ∧
      (v.Undescribable gr s.schema.definitions s.schema.graph event →
        ∃ h, perform (.take name event) s = .error h) := by
  have hvetted := hs.sound.validations name v hv
  have hany := (hs.sound.grammar gr hgr).2
  rw [perform_take hgr hv]
  constructor
  . intro h hperform
    split at hperform
    . cases hperform
    . next f hrun =>
      cases hperform
      have htake := Validation.take_returns event hs.sound.graph hvetted hany
      rcases htake.error f hrun with hf | ⟨rfl, hundescribable⟩
      . cases f with
        | limitExceeded limit => exact Or.inl ⟨limit, rfl⟩
        | undefinedReference => exact absurd trivial hf
        | unguardedReference => exact absurd trivial hf
        | _ => cases hf
      . exact Or.inr ⟨rfl, hundescribable⟩
  . intro hundescribable
    obtain ⟨f, hf⟩ := Validation.take_of_undescribable hs.sound.graph hvetted hany hundescribable
    rw [hf]
    exact ⟨_, rfl⟩

/--
The only element there may be has the null set as its content, and its start tag raises the fault.
-/
theorem perform_take_fails_nullSet :
    ∃ s gr v, s.Reachable ∧ s.grammar = some gr ∧ s.validations["w"]? = some v ∧
      perform (.take "w" (.startElement { name := ⟨"", "a"⟩ })) s =
        .error (.fault .attributesOfNullSet) ∧
      v.Undescribable gr s.schema.definitions s.schema.graph
        (.startElement { name := ⟨"", "a"⟩ }) := by
  obtain ⟨s, hs, hp⟩ := Reachable.of_leadsTo (fun _ => .string)
    [.createGrammar (.element (.only ⟨"", "a"⟩) .nullSet), .createValidation "w"]
    (fun s => s.grammar.isSome && s.validations["w"]?.isSome &&
      halt? (.take "w" (.startElement { name := ⟨"", "a"⟩ })) s = some (.fault .attributesOfNullSet))
    (by simp [Command.isLawful]) (by decide +kernel)
  simp only [Bool.and_eq_true, Option.isSome_iff_exists, decide_eq_true_eq] at hp
  obtain ⟨⟨⟨gr, hgr⟩, v, hv⟩, hhalt⟩ := hp
  have hperform := perform_of_halt? hhalt
  rcases (perform_take_fails_iff hs hgr hv).1 _ hperform with ⟨limit, hlimit⟩ | ⟨_, hundescribable⟩
  . cases hlimit
  . exact ⟨s, gr, v, hs, hgr, hv, hperform, hundescribable⟩

end Session

end TreeGrammar
