import StateSpace.Proofs.Explore.Simulation

/-!
# Sessions do not depend on what came before

An explorer and a table serve one session after another. A session of the right geometry works as a new explorer would
on a new table, and any other does nothing; so what earlier sessions left behind has no effect, even if they broke off
in the middle of a search (`Explorer.explore_independent`).
-/

namespace StateSpace

/-- The length that a session of the wrong geometry complains of: that of the starting state goes before that of the
keys. -/
def wrongLength (model : Model) (t : Table) (request : Request) : Nat :=
  if request.state.length = model.stateSize then t.config.keyLength else request.state.length

theorem checkGeometry_of_wrong_length {model : Model} {t : Table} {request : Request}
    (h : request.state.length ≠ model.stateSize ∨ t.config.keyLength ≠ model.stateSize) :
    checkGeometry model t request = .error (.stateLength model.stateSize (wrongLength model t request)) := by
  unfold checkGeometry wrongLength
  by_cases hroot : request.state.length = model.stateSize
  · have hkey : t.config.keyLength ≠ model.stateSize := h.resolve_left (not_not_intro hroot)
    simp [hroot, hkey]
  · simp [hroot]

/-- **A session is independent of what came before.** Whatever an explorer holds and whatever was done with its table, a
session ends as one of a new explorer on a new table of the same geometry would end, and tells its sink the same in the
same order, of whatever kind the sink is. If the starting state and the keys of the table have the model's number of
words, the statistics of the table are then the same too; if not, the session fails, tells the sink nothing, and leaves
the explorer and the table as they were. -/
theorem Explorer.explore_independent {σ : Type} (e : Explorer) {t : Table} (ht : t.Reachable) (model : Model)
    (notify : σ → Event → σ) (request : Request) (sink : σ) :
    (∃ memory new, Table.create t.config memory = .ok new) ∧
    ∀ memory new, Table.create t.config memory = .ok new →
      let o := e.explore t model notify request sink
      let o' := Explorer.explore {} new model notify request sink
      o.result = o'.result ∧ o.sink = o'.sink ∧
      (request.state.length = model.stateSize → t.config.keyLength = model.stateSize →
        o.table.stats = o'.table.stats) ∧
      (request.state.length ≠ model.stateSize ∨ t.config.keyLength ≠ model.stateSize →
        o = ⟨e, t, sink, .error (.stateLength model.stateSize (wrongLength model t request))⟩) := by
  have hsize : t.slots.size = (Table.empty t.config).slots.size := by
    rw [ht.wellFormed.size_eq]
    simp [Table.empty]
  have hconfig : t.config = (Table.empty t.config).config := rfl
  obtain ⟨hresult, hsink, htable⟩ := Explorer.explore_congr {} e model notify request hconfig hsize sink
  obtain ⟨memory, hnew⟩ := ht.create_config
  refine ⟨⟨memory, _, hnew⟩, fun memory' new hnew' => ?_⟩
  obtain ⟨-, rfl⟩ := Table.create_eq_ok hnew'
  refine ⟨hresult, hsink, fun hroot hkey => ?_, fun hwrong => ?_⟩
  · exact (htable (checkGeometry_eq_ok.2 ⟨hroot, hkey⟩)).stats_eq
  · exact e.explore_of_error (checkGeometry_of_wrong_length hwrong) sink

/-- An explorer that a session left in the middle of a search. -/
def halted : Explorer where
  pending := .ofList [(.internal, [9]), (.visible, [8])]
  current := [5]
  batch := .ofList [(.visible, [4])]

theorem Explorer.explore_independent_halted : Table.regrown.Reachable ∧ Table.regrown.load ≠ 0 ∧
    ∃ new, Table.create ⟨1, 2, 3⟩ = .ok new ∧
      (halted.explore Table.regrown knot.model (fun events e => e :: events) ⟨[0], ⟨0⟩, ⟨7⟩⟩ []).sink =
        (Explorer.explore {} new knot.model (fun events e => e :: events) ⟨[0], ⟨0⟩, ⟨7⟩⟩ []).sink ∧
      (halted.explore Table.regrown knot.model (fun events e => e :: events) ⟨[0], ⟨0⟩, ⟨7⟩⟩ []).table.stats =
        (Explorer.explore {} new knot.model (fun events e => e :: events) ⟨[0], ⟨0⟩, ⟨7⟩⟩ []).table.stats := by
  have hc : Table.create ⟨1, 2, 3⟩ = .ok (Table.empty ⟨1, 2, 3⟩) := by decide
  have hreach : Table.regrown.Reachable := (Table.Reachable.create hc).run _
  have hconfig : Table.regrown.config = ⟨1, 2, 3⟩ := by decide +kernel
  obtain ⟨-, hnew⟩ := Explorer.explore_independent halted hreach knot.model (fun events e => e :: events)
    ⟨[0], ⟨0⟩, ⟨7⟩⟩ []
  rw [hconfig] at hnew
  obtain ⟨-, hsink, hstats, -⟩ := hnew _ _ hc
  exact ⟨hreach, by decide +kernel, _, hc, hsink, hstats rfl rfl⟩

end StateSpace
