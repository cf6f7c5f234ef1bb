import StateSpace.Proofs.Explore.Steps

/-!
# Clients of a table

A client works on one table that it was given: it gives commands and starts explorations, and decides by what it has
learnt what to do next (`Client`). Two tables that are alike cannot be told apart by any client
(`Client.sameResult_run`); so a client of a cleared table learns what it would learn of a new one (`Used.alike_clear`),
whatever was done to the table before (`Used`).
-/

namespace StateSpace

/-- What a client does with a table until it has its result. It sees every reply, and the statistics after it. -/
inductive Client (α : Type) where
  | done (result : α)
  | command (command : Table.Command) (next : Table.Reply → Table.Stats → Client α)
  | explore (explorer : Explorer) (model : Model) (request : Request)
      (next : Array Event → Except ExploreError Report → Table.Stats → Client α)

/-- The result of a client, and the table that it leaves. -/
def Client.run {α : Type} : Client α → Table → α × Table
  | .done result, t => (result, t)
  | .command c next, t =>
    let (reply, t) := t.perform c
    (next reply t.stats).run t
  | .explore explorer model request next, t =>
    let o := explorer.explore t model Array.push request #[]
    (next o.sink o.result o.table.stats).run o.table

/-- No client tells two tables that are alike apart. -/
theorem Client.sameResult_run {α : Type} (client : Client α) {t t' : Table} (h : Table.Alike t t') :
    Table.SameResult (client.run t) (client.run t') := by
  induction client generalizing t t' with
  | done result => exact ⟨rfl, h⟩
  | command c next ih =>
    obtain ⟨hreply, htable⟩ := Table.alike_perform h c
    simp only [run, hreply, htable.stats_eq]
    exact ih _ _ htable
  | explore explorer model request next ih =>
    obtain ⟨hresult, hsink, htable⟩ := explorer.alike_explore explorer model Array.push request h #[]
    simp only [run, hresult, hsink, htable.stats_eq]
    exact ih _ _ _ htable

/-! ## Tables with a past -/

/-- A table of the given geometry that operations made of a new one. -/
structure Table.Used (config : Table.Config) (t : Table) : Prop where
  reachable : t.Reachable
  config_eq : t.config = config

namespace Table.Used

variable {config : Table.Config} {t : Table}

theorem of_create {memory : Memory} (hc : Table.create config memory = .ok t) : Used config t :=
  ⟨.create hc, by rw [(create_eq_ok hc).2]; rfl⟩

theorem apply (h : Used config t) (op : Op) : Used config (t.apply op).2 :=
  ⟨h.reachable.apply op, (config_apply h.reachable.wellFormed op).trans h.config_eq⟩

theorem act (h : Used config t) {op : Op} (hop : t.check op = .ok ()) : Used config (t.act op).2 := by
  have happly := h.apply op
  rwa [apply_of_check hop] at happly

theorem foldl_act (h : Used config t) (op : KeyOp) {keys : List State}
    (hlength : ∀ key ∈ keys, key.length = config.keyLength) (answers : Array Answer) :
    Used config (keys.foldl (fun (answers, t) key =>
      let (answer, t) := t.act (op.on key)
      (answers.push answer, t)) (answers, t)).2 := by
  induction keys generalizing answers t with
  | nil => exact h
  | cons key keys ih =>
    have hop : t.check (op.on key) = .ok () := check_eq_ok.2 fun key' hkey' => by
      have heq : key' = key := by cases op <;> simpa [KeyOp.on, Op.key?, eq_comm] using hkey'
      rw [heq, h.config_eq, hlength key List.mem_cons_self]
    exact ih (h.act hop) (fun key' hkey' => hlength key' (List.mem_cons_of_mem _ hkey')) _

theorem actOn (h : Used config t) (op : KeyOp) {s : Series} (hs : s.wrongLength? t = none) :
    Used config (t.actOn op s).2 := by
  refine h.foldl_act op (fun key hkey => ?_) #[]
  obtain ⟨k, hk, rfl⟩ := List.mem_map.1 hkey
  have hcount : s.count ≠ 0 := by
    have hlt := List.mem_range.1 hk
    omega
  have hpattern : s.pattern.length = t.config.keyLength := by
    simpa [Series.wrongLength?, hcount] using hs
  simpa [Series.key, ← h.config_eq] using hpattern

theorem perform (h : Used config t) (command : Command) : Used config (t.perform command).2 := by
  cases command with
  | op op =>
    have happly := h.apply op
    unfold Table.perform
    dsimp only
    split
    · rename_i heq
      rwa [heq] at happly
    · rename_i heq
      rwa [heq] at happly
  | series op keys =>
    unfold Table.perform
    dsimp only
    split
    · exact h
    · rename_i hs
      exact h.actOn op hs
  | summary => exact h

theorem explore {σ : Type} (h : Used config t) (e : Explorer) (model : Model) (notify : σ → Event → σ)
    (request : Request) (sink : σ) : Used config (e.explore t model notify request sink).table :=
  ⟨e.reachable_explore model notify request h.reachable sink,
    (e.config_explore model notify request h.reachable sink).trans h.config_eq⟩

theorem run {α : Type} (h : Used config t) (client : Client α) : Used config (client.run t).2 := by
  induction client generalizing t with
  | done result => exact h
  | command c next ih => exact ih _ _ (h.perform c)
  | explore explorer model request next ih => exact ih _ _ _ (h.explore explorer model _ request _)

theorem create_eq (h : Used config t) : ∃ memory, Table.create config memory = .ok (Table.empty config) := by
  rw [← h.config_eq]
  exact h.reachable.create_config

theorem clear (h : Used config t) : Used config t.clear := h.apply .clear

theorem alike_clear (h : Used config t) : Alike (Table.empty config) t.clear := by
  rw [← h.config_eq]
  exact Table.alike_clear h.reachable.wellFormed.toGeometry

end Table.Used

end StateSpace
