import StateSpace.Cache
import StateSpace.Proofs.Explore.Clients

/-!
# Keeping a table does not show

Between two sessions a cache keeps a table or none (`Settled`), and whether it keeps one can be read off what its users
have seen last (`Left`). A session gets a table that is alike to a new one, and it gets none exactly if none of the
geometry is kept and none can be made (`Settled.lend`). So nobody can tell the cache from one that makes a new table for
each session, but for the answers of its releases (`transparent_runUses`), as long as memory says the same whenever it
is asked for a table of the same geometry.
-/

namespace StateSpace

namespace Cache

/-! ## Uses of a cache while no session runs -/

/-- A session that lets a client work on its table. -/
def session {α : Type} (c : Cache) (config : Table.Config) (memory : Table.Memory) (client : Client α) :
    Except CacheError α × Cache :=
  c.withTable config memory fun t c =>
    let (result, t) := client.run t
    (result, t, c)

/-- An exploration with a sink that does not use the cache; its result, and the sink after the events. -/
def exploration {σ : Type} (c : Cache) (config : Table.Config) (memory : Table.Memory) (explorer : Explorer)
    (model : Model) (notify : σ → Event → σ) (request : Request) (sink : σ) :
    (Except CacheError Report × σ) × Cache :=
  let ((result, _, sink), c) :=
    c.explore config memory explorer model (fun (c, k) event => (c, notify k event)) request sink
  ((result, sink), c)

inductive Use (α : Type) where
  | session (config : Table.Config) (client : Client α)
  | explore (config : Table.Config) (explorer : Explorer) (model : Model) (request : Request)
  | release

/-- What a user sees of a use. -/
inductive Seen (α : Type) where
  | session (result : Except CacheError α)
  | explored (events : Array Event) (result : Except CacheError Report)
  | released (wasKept : Bool)

variable {α : Type} {memory : Table.Config → Table.Memory}

/-- Uses a cache once; what memory says depends on the geometry of the table that is asked for. -/
def Use.run (memory : Table.Config → Table.Memory) : Use α → Cache → Seen α × Cache
  | .session config client, c =>
    let (result, c) := c.session config (memory config) client
    (.session result, c)
  | .explore config explorer model request, c =>
    let ((result, events), c) := c.exploration config (memory config) explorer model Array.push request #[]
    (.explored events result, c)
  | .release, c =>
    let (wasKept, c) := c.release
    (.released wasKept, c)

/-- Uses a cache in order. -/
def runUses (memory : Table.Config → Table.Memory) : List (Use α) → Cache → List (Seen α) × Cache
  | [], c => ([], c)
  | use :: rest, c =>
    let (seen, c) := use.run memory c
    let (others, c) := runUses memory rest c
    (seen :: others, c)

theorem runUses_concat (uses : List (Use α)) (use : Use α) (c : Cache) :
    runUses memory (uses ++ [use]) c =
      ((runUses memory uses c).1 ++ [(use.run memory (runUses memory uses c).2).1],
        (use.run memory (runUses memory uses c).2).2) := by
  induction uses generalizing c with
  | nil => rfl
  | cons first rest ih => simp only [List.cons_append, runUses, ih]

namespace Seen

/-- Whether the use got a table. -/
def granted : Seen α → Bool
  | .session (.ok _) | .explored _ (.ok _) | .explored _ (.error (.explore _)) => true
  | _ => false

/-- Whether no table could be made for the use. -/
def failed : Seen α → Bool
  | .session (.error (.table _)) | .explored _ (.error (.table _)) => true
  | _ => false

/-- Whether the use was a release. -/
def releases : Seen α → Bool
  | .released _ => true
  | _ => false

/-- A table was granted since the last release, and none has failed to be made after it. -/
def GrantedSince (seen : List (Seen α)) : Prop :=
  ∃ earlier s later, seen = earlier ++ s :: later ∧ s.granted = true ∧
    ∀ s' ∈ later, s'.failed = false ∧ s'.releases = false

theorem grantedSince_concat {seen : List (Seen α)} {s : Seen α} :
    GrantedSince (seen ++ [s]) ↔
      s.granted = true ∨ GrantedSince seen ∧ s.failed = false ∧ s.releases = false := by
  constructor
  · rintro ⟨earlier, s₀, later, heq, hgranted, hlater⟩
    rcases List.eq_nil_or_concat later with rfl | ⟨later, last, rfl⟩
    · obtain ⟨-, hs⟩ := List.append_inj' heq rfl
      rw [(List.cons.inj hs).1]
      exact .inl hgranted
    · have hsplit : seen ++ [s] = (earlier ++ s₀ :: later) ++ [last] := by simpa using heq
      obtain ⟨hseen, hs⟩ := List.append_inj' hsplit rfl
      rw [(List.cons.inj hs).1]
      exact .inr ⟨⟨earlier, s₀, later, hseen, hgranted, fun s' hs' => hlater s' (by simp [hs'])⟩,
        hlater last (by simp)⟩
  · rintro (hgranted | ⟨⟨earlier, s₀, later, rfl, hgranted, hlater⟩, hs⟩)
    · exact ⟨seen, s, [], rfl, hgranted, fun s' hs' => by cases hs'⟩
    · refine ⟨earlier, s₀, later ++ [s], by simp, hgranted, fun s' hs' => ?_⟩
      rcases List.mem_append.1 hs' with hs' | hs'
      · exact hlater s' hs'
      · rwa [List.mem_singleton.1 hs']

end Seen

/-! ## One use -/

/-- A table of the geometry is kept. -/
def Keeps (c : Cache) (config : Table.Config) : Prop := ∃ t, c = .idle (some t) ∧ t.config = config

/-- No session runs, and the table that is kept is one that operations made of a new one. Memory would grant a table of
its geometry again. -/
structure Settled (memory : Table.Config → Table.Memory) (c : Cache) : Prop where
  idle : c ≠ .lent
  reachable : ∀ t, c = .idle (some t) → t.Reachable
  create_eq : ∀ t, c = .idle (some t) → Table.create t.config (memory t.config) = .ok (Table.empty t.config)

/-- What a use leaves behind: a table if it got one, and nothing otherwise. -/
inductive Left (memory : Table.Config → Table.Memory) : Seen α → Cache → Prop
  | kept {s : Seen α} {config : Table.Config} {t : Table} : s.granted = true →
      Table.create config (memory config) = .ok (Table.empty config) → t.Used config → Left memory s (.idle (some t))
  | gone {s : Seen α} : s.granted = false → (s.failed = true ∨ s.releases = true) → Left memory s (.idle none)

variable {c : Cache}

theorem Left.settled {s : Seen α} (h : Left memory s c) : Settled memory c := by
  cases h with
  | kept _ hc ht =>
    obtain ⟨hreach, rfl⟩ := ht
    refine ⟨by simp, fun t' heq => ?_, fun t' heq => ?_⟩
    · cases heq
      exact hreach
    · cases heq
      exact hc
  | gone => exact ⟨by simp, by simp, by simp⟩

/-- A session gets a table that is alike to a new one, unless no table of the geometry is kept and none can be made. -/
theorem Settled.lend (h : Settled memory c) (config : Table.Config) (asked : Table.Memory) :
    (∃ t, c.lend config asked = (.ok t, .lent) ∧
      (c.Keeps config ∨ Table.create config asked = .ok (Table.empty config)) ∧ t.Used config ∧
      Table.Alike (Table.empty config) t) ∨
    ∃ error, c.lend config asked = (.error (.table error), .idle none) ∧ Table.create config asked = .error error ∧
      ¬ c.Keeps config := by
  cases c with
  | lent => exact absurd rfl h.idle
  | idle kept =>
    by_cases hkeeps : Keeps (.idle kept) config
    · obtain ⟨t, heq, hconfig⟩ := hkeeps
      cases heq
      have ht : t.Used config := ⟨h.reachable t rfl, hconfig⟩
      have hreuse : reuse? (some t) config = some t.clear := by simp [reuse?, Option.filter_some, hconfig]
      exact .inl ⟨t.clear, by simp only [Cache.lend, hreuse], .inl ⟨t, rfl, hconfig⟩, ht.clear, ht.alike_clear⟩
    · have hreuse : reuse? kept config = none := by
        simp only [reuse?, Option.map_eq_none_iff, Option.filter_eq_none_iff, decide_eq_true_eq]
        exact fun t ht hconfig => hkeeps ⟨t, congrArg Cache.idle ht, hconfig⟩
      cases hc : Table.create config asked with
      | ok new =>
        have hnew : new = Table.empty config := (Table.create_eq_ok hc).2
        refine .inl ⟨new, by simp only [Cache.lend, hreuse, hc], .inr (by rw [hnew]), .of_create hc, ?_⟩
        rw [hnew]
        exact .refl _
      | error error => exact .inr ⟨error, by simp only [Cache.lend, hreuse, hc], rfl, hkeeps⟩

/-- If memory is asked for a table of this geometry as always, a session gets one exactly if it can be made. -/
theorem Settled.lend_steady (h : Settled memory c) (config : Table.Config) :
    (∃ t, c.lend config (memory config) = (.ok t, .lent) ∧
      Table.create config (memory config) = .ok (Table.empty config) ∧ t.Used config ∧
      Table.Alike (Table.empty config) t) ∨
    ∃ error, c.lend config (memory config) = (.error (.table error), .idle none) ∧
      Table.create config (memory config) = .error error := by
  obtain ⟨t, hlend, hc, ht, halike⟩ | ⟨error, hlend, hc, -⟩ := h.lend config (memory config)
  · refine .inl ⟨t, hlend, hc.elim ?_ id, ht, halike⟩
    rintro ⟨kept, heq, rfl⟩
    exact h.create_eq kept heq
  · exact .inr ⟨error, hlend, hc⟩

/-- A session does what its client does with a new table, and its table is kept. -/
theorem Settled.session (h : Settled memory c) (config : Table.Config) (client : Client α) :
    match Table.create config (memory config) with
    | .ok new =>
      (c.session config (memory config) client).1 = .ok (client.run new).1 ∧
        ∃ t, (c.session config (memory config) client).2 = .idle (some t) ∧ t.Used config
    | .error error => c.session config (memory config) client = (.error (.table error), .idle none) := by
  unfold Cache.session withTable
  obtain ⟨t, hlend, hc, ht, halike⟩ | ⟨error, hlend, hc⟩ := h.lend_steady config
  · rw [hlend, hc]
    have hresult := client.sameResult_run halike
    exact ⟨congrArg Except.ok hresult.1, _, rfl, ht.run client⟩
  · rw [hlend, hc]

/-- An exploration is one by a new explorer on a new table, and its table is kept. -/
theorem Settled.exploration {σ : Type} (h : Settled memory c) (config : Table.Config) (explorer : Explorer)
    (model : Model) (notify : σ → Event → σ) (request : Request) (sink : σ) :
    match Table.create config (memory config) with
    | .ok new =>
      let o := Explorer.explore {} new model notify request sink
      (c.exploration config (memory config) explorer model notify request sink).1 =
          (o.result.mapError .explore, o.sink) ∧
        ∃ t, (c.exploration config (memory config) explorer model notify request sink).2 = .idle (some t) ∧
          t.Used config
    | .error error =>
      c.exploration config (memory config) explorer model notify request sink =
        ((.error (.table error), sink), .idle none) := by
  unfold Cache.exploration Cache.explore withTable
  obtain ⟨t, hlend, hc, ht, halike⟩ | ⟨error, hlend, hc⟩ := h.lend_steady config
  · rw [hlend, hc]
    -- the sink is a pair here, and its first part stays the cache that has lent its table
    let told (k : σ) (p : Cache × σ) : Prop := p = (.lent, k)
    have htold : Search.Keeps told notify fun (c, k) event => (c, notify k event) := by
      rintro k p event rfl
      rfl
    obtain ⟨hresult, hsink, -⟩ := Explorer.explore_related {} explorer model htold request halike.config_eq
      halike.size_eq (rfl : told sink (.lent, sink))
    have hkept := ht.explore explorer model (fun (c, k) event => (c, notify k event)) request (Cache.lent, sink)
    dsimp only at hresult hsink ⊢
    rw [hresult, hsink]
    exact ⟨rfl, _, rfl, hkept⟩
  · rw [hlend, hc]

theorem Settled.release (h : Settled memory c) : c.release.2 = .idle none := by
  cases c with
  | lent => exact absurd rfl h.idle
  | idle kept => rfl

/-- What every use does to a cache. -/
theorem Settled.left (h : Settled memory c) (use : Use α) :
    Left memory (use.run memory c).1 (use.run memory c).2 := by
  cases use with
  | session config client =>
    have hsession := h.session config client
    cases hc : Table.create config (memory config) with
    | ok new =>
      obtain ⟨-, rfl⟩ := Table.create_eq_ok hc
      rw [hc] at hsession
      obtain ⟨hresult, t, hkept, ht⟩ := hsession
      simp only [Use.run, hresult, hkept]
      exact .kept rfl hc ht
    | error error =>
      rw [hc] at hsession
      simp only [Use.run, hsession]
      exact .gone rfl (.inl rfl)
  | explore config explorer model request =>
    have hexploration := h.exploration config explorer model Array.push request #[]
    cases hc : Table.create config (memory config) with
    | ok new =>
      obtain ⟨-, rfl⟩ := Table.create_eq_ok hc
      rw [hc] at hexploration
      obtain ⟨hresult, t, hkept, ht⟩ := hexploration
      simp only [Use.run, hresult, hkept]
      refine .kept ?_ hc ht
      cases (Explorer.explore {} (Table.empty config) model Array.push request #[]).result <;> rfl
    | error error =>
      rw [hc] at hexploration
      simp only [Use.run, hexploration]
      exact .gone rfl (.inl rfl)
  | release =>
    simp only [Use.run, h.release]
    exact .gone rfl (.inr rfl)

/-! ## All uses -/

theorem settled_idle_none : Settled memory (.idle none) :=
  ⟨by simp, by simp, by simp⟩

/-- After any uses a table is kept if one was granted since the last release and none failed to be made after it. -/
theorem settled_runUses (memory : Table.Config → Table.Memory) (uses : List (Use α)) :
    Settled memory (runUses memory uses (.idle none)).2 ∧
      ((runUses memory uses (.idle none)).2.release.1 = true ↔
        Seen.GrantedSince (runUses memory uses (.idle none)).1) := by
  -- from the end of the history: what is kept was left there by the last use, whatever came before
  induction uses using List.reverseRecOn with
  | nil =>
    refine ⟨settled_idle_none, by simp [runUses, Cache.release], ?_⟩
    rintro ⟨earlier, s, later, heq, -⟩
    simp [runUses] at heq
  | append_singleton uses use ih =>
    obtain ⟨hsettled, -⟩ := ih
    rw [runUses_concat]
    have hleft := hsettled.left use
    refine ⟨hleft.settled, ?_⟩
    rw [Seen.grantedSince_concat]
    generalize (use.run memory (runUses memory uses (.idle none)).2).1 = s at hleft
    generalize (use.run memory (runUses memory uses (.idle none)).2).2 = c at hleft
    cases hleft with
    | kept hgranted => simp [hgranted, Cache.release]
    | gone hgranted hgone =>
      rcases hgone with hfailed | hreleases
      · simp [hgranted, hfailed, Cache.release]
      · simp [hgranted, hreleases, Cache.release]

/-- A cache whose users cannot tell that it keeps tables, after they have seen what it did for them so far. -/
structure Transparent (memory : Table.Config → Table.Memory) (seen : List (Seen α)) (c : Cache) : Prop where
  /-- A session has the result that its client would have with a new table. -/
  session_eq : ∀ {β : Type} (config : Table.Config) (client : Client β),
    (c.session config (memory config) client).1 = match Table.create config (memory config) with
      | .ok new => .ok (client.run new).1
      | .error error => .error (.table error)
  /-- A session fails if no table of its geometry is kept and none can be made, and never otherwise, whatever memory
  says to it. -/
  session_error_iff : ∀ {β : Type} (config : Table.Config) (asked : Table.Memory) (client : Client β)
    (error : CacheError), (c.session config asked client).1 = .error error ↔
      ¬ c.Keeps config ∧ ∃ e, Table.create config asked = .error e ∧ error = .table e
  /-- An exploration ends and tells its sink as one by a new explorer on a new table. -/
  exploration_eq : ∀ {σ : Type} (config : Table.Config) (explorer : Explorer) (model : Model)
    (notify : σ → Event → σ) (request : Request) (sink : σ),
    (c.exploration config (memory config) explorer model notify request sink).1 =
      match Table.create config (memory config) with
      | .ok new =>
        let o := Explorer.explore {} new model notify request sink
        (o.result.mapError .explore, o.sink)
      | .error error => (.error (.table error), sink)
  /-- A release finds a table if one was granted since the last release and none has failed to be made after it. -/
  release_iff : c.release.1 = true ↔ Seen.GrantedSince seen

/-- **Keeping a table does not show.** Let what memory says depend on the geometry only. Whatever a cache was used for,
with whatever geometries and clients, and whether tables could be made or not: a session and an exploration get what
they would get with a new table and a new explorer, they fail for want of a table only if none of the geometry is kept,
then with the error of making one, and a release finds a table exactly if one was granted since the last release and
none has failed to be made after it. -/
theorem transparent_runUses (memory : Table.Config → Table.Memory) (uses : List (Use α)) :
    Transparent memory (runUses memory uses (.idle none)).1 (runUses memory uses (.idle none)).2 := by
  obtain ⟨h, hrelease⟩ := settled_runUses memory uses
  generalize (runUses memory uses (.idle none)).2 = c at h hrelease
  refine ⟨fun config client => ?_, fun config asked client error => ?_,
    fun config explorer model notify request sink => ?_, hrelease⟩
  · have hsession := h.session config client
    cases hc : Table.create config (memory config) with
    | ok new => rw [hc] at hsession; exact hsession.1
    | error error => rw [hc] at hsession; rw [hsession]
  · obtain ⟨t, hlend, hmade, -⟩ | ⟨error', hlend, hc, hkeeps⟩ := h.lend config asked
    · have hgranted : ¬ c.Keeps config → ∀ e, Table.create config asked ≠ .error e := fun hkeeps e => by
        rw [hmade.resolve_left hkeeps]
        simp
      simp only [Cache.session, withTable, hlend, reduceCtorEq, false_iff]
      rintro ⟨hkeeps, e, he, -⟩
      exact hgranted hkeeps e he
    · simp [Cache.session, withTable, hlend, hc, hkeeps, eq_comm]
  · have hexploration := h.exploration config explorer model notify request sink
    cases hc : Table.create config (memory config) with
    | ok new => rw [hc] at hexploration; exact hexploration.1
    | error error => rw [hc] at hexploration; rw [hexploration]

end Cache

end StateSpace
