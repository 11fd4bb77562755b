import Statechart.Proofs.Publishing
import Statechart.Proofs.Settling
import Statechart.Proofs.Worlds

/-!
Starting again. Before a session starts anew its services are cancelled and it is cleared; from
there on nothing tells it from a new one, whatever was done to it before.
-/

namespace Statechart.Interpreter

variable {σ τ : Type} {m : Interpreter σ}

/-- A session that is cleared has no services to cancel, and clearing it again changes nothing. -/
theorem reset_clear (r : Run σ) : m.reset (m.clear r) = m.reset r :=
  rfl

theorem go_clear (r : Run σ) : m.go (m.clear r) = m.go r := by
  unfold go
  rw [reset_clear]

/-- Going forgets everything. From any run, whatever operations, failures, refusals and snapshots
have led to it, `go` comes to the same as from a new session with the same id, if the host answers
alike once the services that were running are cancelled; and so does everything
that is done later. Sessions stay the same, and beyond the cancellations the journals are the
same. -/
theorem go_forgets {k : Host τ} {R : σ → τ → Prop} (halike : Host.AnswersAlike R m.host k)
    (r : Run σ) {world : τ} (hworld : R (m.cancelAllInvokes r).world world) :
    let begun := Run.new r.session.id world
    (m.go r).1 = ((m.on k).go begun).1 ∧
      ∀ later : List Operation,
        let s := m.operateAll later (m.go r).2
        let t := (m.on k).operateAll later ((m.on k).go begun).2
        (∀ operation, (m.operate operation s).1 = ((m.on k).operate operation t).1) ∧
          t.session = s.session ∧
          s.journal = t.journal ++ (m.cancelAllInvokes r).journal := by
  intro begun
  have hid : (m.cancelAllInvokes r).session.id = r.session.id :=
    (m.acts_cancelAllInvokes r).keeps.2.2.2.2.1
  -- Once both sessions are cleared they are the same.
  have hsession : ((m.on k).clear begun).session = (m.clear r).session :=
    congrArg (Session.fresh m.chart m.evaluator.sharesContext) hid.symm
  have halong := fun operations =>
    halike.operateAll_alike (r := m.clear r) hsession hworld operations
  refine ⟨?_, ?_⟩
  · have hgo : (m.go (m.clear r)).1 = ((m.on k).go ((m.on k).clear begun)).1 :=
      (halong []).1 .go
    rwa [go_clear, go_clear] at hgo
  · intro later s t
    have hs : m.operateAll (.go :: later) (m.clear r) = s :=
      congrArg (fun out : Outcome × Run σ => m.operateAll later out.2) (go_clear r)
    have ht : (m.on k).operateAll (.go :: later) ((m.on k).clear begun) = t :=
      congrArg (fun out : Outcome × Run τ => (m.on k).operateAll later out.2)
        (go_clear begun)
    obtain ⟨hout, hsame, entries, hjournal, hjournal'⟩ := halong (.go :: later)
    rw [hs, ht] at hout hsame
    rw [hs] at hjournal
    rw [ht] at hjournal'
    refine ⟨hout, hsame, ?_⟩
    rw [hjournal, show t.journal = entries ++ [] from hjournal', List.append_nil]
    rfl

/-- Hosts that differ in nothing but their states, and refuse the same, answer alike. -/
theorem answersAlike_refusing (refusals : Refusals) :
    Host.AnswersAlike (fun (_ : σ) (_ : τ) => True) (.refusing refusals) (.refusing refusals) where
  send _ _ _ _ := ⟨rfl, trivial⟩
  cancelSend _ _ _ _ := ⟨rfl, trivial⟩
  startInvoke _ _ _ _ := ⟨rfl, trivial⟩
  cancelInvoke _ _ _ _ := ⟨rfl, trivial⟩

/-- A session is started again while its service runs. The service refuses to be cancelled, which
raises an event in the session that is about to be cleared, and nothing is left of it. -/
theorem go_forgets_stubborn :
    let r := (stubborn.go (Run.new secondId ())).2
    let again := (stubborn.go r).2
    r.session.invokes.isEmpty = false ∧
      (stubborn.cancelAllInvokes r).session.internal.isEmpty = false ∧
      again.session = (stubborn.go (Run.new secondId ())).2.session := by
  intro r again
  have halike : Host.AnswersAlike (fun _ _ => True) stubborn.host stubborn.host :=
    answersAlike_refusing _
  have hid : r.session.id = secondId := by decide +kernel
  have hworld : (fun _ _ => True) (stubborn.cancelAllInvokes r).world () := trivial
  obtain ⟨-, hlater⟩ := go_forgets halike r hworld
  obtain ⟨-, hsame, -⟩ := hlater []
  rw [hid] at hsame
  exact ⟨by decide +kernel, by decide +kernel, hsame.symm⟩

end Statechart.Interpreter
