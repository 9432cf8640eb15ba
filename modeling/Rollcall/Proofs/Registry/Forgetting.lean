import Rollcall.Proofs.Registry.Calls
import Rollcall.Scripted

/-!
Withdrawals that fail. A registry forgets a node before it asks the backend to delete the
key, and a failure does not bring the node back. What a registry remembers of a component
is settled by the last use that published a node of it or withdrew it, whatever the backend
and its other users do. Main statements: `node?_runAll`, `withdraws_registered`,
`failed_withdrawal_forgets` and, where the key outlives its node, `withdrawal_lost`.
-/

namespace Rollcall

namespace Registry

variable {σ : Type}

/-- What happens to a registry and the state that its backend acts on. The backend may
answer each call in its own way, as one does that looks at the clock. -/
inductive Use (σ : Type) where
  | register (b : Backend σ) (component address : String) (options : RegisterOptions)
  | unregister (b : Backend σ) (component : String)
  /-- Others change what the backend acts on. -/
  | beside (change : σ → σ)

def Use.run : Use σ → Registry × σ → Registry × σ
  | .register b component address options, w => (w.1.register b component address options w.2).2
  | .unregister b component, w => (w.1.unregister b component w.2).2
  | .beside change, w => (w.1, change w.2)

def runAll (uses : List (Use σ)) (w : Registry × σ) : Registry × σ :=
  uses.foldl (fun w u => u.run w) w

def Use.published? (component : String) (w : Registry × σ) : Use σ → Option Node
  | .register b other address options =>
      match (w.1.register b other address options w.2).1 with
      | .ok id =>
          if other = component ∧ options.isolate = false then
            some (w.1.nodeFor other address options id)
          else none
      | .error _ => none
  | _ => none

def Use.withdraws (component : String) : Use σ → Bool
  | .unregister _ other => other = component
  | _ => false

def Unpublished (component : String) : List (Use σ) → Registry × σ → Prop
  | [], _ => True
  | u :: rest, w => u.published? component w = none ∧ Unpublished component rest (u.run w)

section

variable (r : Registry) (b : Backend σ) (component address : String) (options : RegisterOptions)
  (s : σ)

/-- A registration changes its registry only by the node that it publishes. -/
theorem registry_register : (r.register b component address options s).2.1 =
    match (r.register b component address options s).1 with
    | .ok id =>
        if options.isolate then r
        else { r with
          published := r.published.insert component (r.nodeFor component address options id) }
    | .error _ => r := by
  unfold register
  dsimp only
  split
  · rfl
  · rcases (b.increment (Key.nodeId component)).exec s with ⟨failure | id, s₁⟩
    · rfl
    · cases hisolate : options.isolate with
      | true => simp
      | false =>
          have hnode : (Node.create component address id (options.ttl.getD r.defaultTtl)
              ).withSubServices options.subServices = r.nodeFor component address options id := rfl
          simp only [Bool.false_eq_true, if_false, hnode]
          rcases (b.keepAlive (Key.service component address)
            (r.nodeFor component address options id).encode
            (options.ttl.getD r.defaultTtl)).exec s₁ with ⟨failure | ⟨⟩, s₂⟩ <;> rfl

/-- Of a component that is not known nothing is withdrawn, and the backend is not asked. -/
theorem unregister_of_none (h : r.node? component = none) :
    r.unregister b component s = (.ok none, r, s) := by
  unfold node? at h
  rw [unregister, h]

/-- A withdrawal forgets the node, whatever the backend answers. -/
theorem unregister_of_some {node : Node} (h : r.node? component = some node) :
    r.unregister b component s = (((b.delete node.key).exec s).1.map (fun _ => some node),
      { r with published := r.published.erase component }, ((b.delete node.key).exec s).2) := by
  unfold node? at h
  have hkey : Key.service node.service node.address = node.key := rfl
  simp only [unregister, h, hkey]
  rcases (b.delete node.key).exec s with ⟨failure | ⟨⟩, s'⟩ <;> rfl

/-- It fails where a node is remembered and the deletion of its key fails. -/
theorem unregister_error_iff {f : Failure} :
    (r.unregister b component s).1 = .error f ↔
      ∃ node, r.node? component = some node ∧ ((b.delete node.key).exec s).1 = .error f := by
  cases hnode : r.node? component with
  | none => simp [unregister_of_none r b component s hnode]
  | some node =>
      simp only [unregister_of_some r b component s hnode, Option.some.injEq, exists_eq_left']
      cases ((b.delete node.key).exec s).1 <;> simp [Except.map]

end

section

variable {component : String}

theorem node?_run (component : String) (u : Use σ) (w : Registry × σ) :
    (u.run w).1.node? component =
      ((u.published? component w).or
        (if u.withdraws component then none else w.1.node? component)) := by
  obtain ⟨r, s⟩ := w
  cases u with
  | register b other address options =>
      simp only [Use.run, Use.published?, Use.withdraws, registry_register]
      cases (r.register b other address options s).1 with
      | error failure => simp
      | ok id =>
          cases hisolate : options.isolate with
          | true => simp
          | false =>
              by_cases hother : other = component
              · simp [hother, node?, Table.get?_insert]
              · simp [hother, node?, Table.get?_insert, Ne.symm hother]
  | unregister b other =>
      simp only [Use.run, Use.published?, Use.withdraws, Option.none_or]
      cases hnode : r.node? other with
      | none =>
          rw [unregister_of_none r b other s hnode]
          by_cases hother : other = component
          · subst hother
            simpa using hnode
          · simp [hother]
      | some node =>
          rw [unregister_of_some r b other s hnode]
          by_cases hother : other = component
          · simp [hother, node?, Table.get?_erase]
          · simp [hother, node?, Table.get?_erase, Ne.symm hother]
  | beside change => simp [Use.run, Use.published?, Use.withdraws]

/-- Where no node of the component is published, the registry remembers what it did, until
the component is withdrawn. -/
theorem node?_runAll {uses : List (Use σ)} {w : Registry × σ}
    (h : Unpublished component uses w) :
    (runAll uses w).1.node? component =
      if uses.any (Use.withdraws component) then none else w.1.node? component := by
  induction uses generalizing w with
  | nil => rfl
  | cons u rest ih =>
      obtain ⟨hsilent, hrest⟩ := h
      have hrun : runAll (u :: rest) w = runAll rest (u.run w) := rfl
      rw [hrun, ih hrest, node?_run, hsilent, Option.none_or, List.any_cons]
      cases u.withdraws component <;> cases rest.any (Use.withdraws component) <;> simp

/-- After a registration that publishes, and until a withdrawal, the deletion that a
withdrawal asks for is that of the key registered. -/
theorem withdraws_registered {b : Backend σ} {w : Registry × σ} {address : String}
    {options : RegisterOptions} {id : Int} {later : List (Use σ)}
    (hpublishes : options.isolate = false)
    (h : (w.1.register b component address options w.2).1 = .ok id)
    (hlater : Unpublished component later (w.1.register b component address options w.2).2)
    (hkept : later.any (Use.withdraws component) = false) (b' : Backend σ) :
    let node := w.1.nodeFor component address options id
    let w' := runAll later (w.1.register b component address options w.2).2
    let deleted := (b'.delete (Key.service component address)).exec w'.2
    w'.1.unregister b' component w'.2 =
      (deleted.1.map (fun _ => some node),
        { w'.1 with published := w'.1.published.erase component }, deleted.2) := by
  intro node w' deleted
  have hnode : w'.1.node? component = some node := by
    have hpublished : (Use.register b component address options).published? component w =
        some node := by
      simp [Use.published?, h, hpublishes, node]
    have hrun := node?_run component (.register b component address options) w
    rw [hpublished, Option.some_or] at hrun
    rw [node?_runAll hlater, hkept]
    exact hrun
  rw [unregister_of_some w'.1 b' component w'.2 hnode, key_nodeFor]

end

/-- A withdrawal fails where a node is remembered and the backend fails to delete its key.
Then the node is forgotten all the same, and no other is. From then on, whatever the
registry and the backend do, as long as no node of the component is published, there is
none, and a withdrawal answers so and leaves the backend alone: the deletion is not tried
again. -/
theorem failed_withdrawal_forgets (r : Registry) (b : Backend σ) (component : String) (s : σ)
    (f : Failure) :
    ((r.unregister b component s).1 = .error f ↔
      ∃ node, r.node? component = some node ∧ ((b.delete node.key).exec s).1 = .error f) ∧
    ((r.unregister b component s).1 = .error f →
      let left := (r.unregister b component s).2
      (∀ other, left.1.node? other = if other = component then none else r.node? other) ∧
      ∀ uses, Unpublished component uses left →
        let w := runAll uses left
        w.1.node? component = none ∧
          ∀ b' : Backend σ, w.1.unregister b' component w.2 = (.ok none, w)) := by
  refine ⟨unregister_error_iff r b component s, ?_⟩
  intro hfailed left
  obtain ⟨node, hnode, -⟩ := (unregister_error_iff r b component s).mp hfailed
  have hforgotten (other : String) :
      left.1.node? other = if other = component then none else r.node? other := by
    have hleft : left = _ := congrArg Prod.snd (unregister_of_some r b component s hnode)
    rw [hleft]
    exact Table.get?_erase _ _ _
  refine ⟨hforgotten, ?_⟩
  intro uses hunpublished w
  have hnone : w.1.node? component = none := by
    rw [node?_runAll hunpublished, hforgotten, if_pos rfl]
    exact ite_self none
  exact ⟨hnone, fun b' => unregister_of_none w.1 b' component w.2 hnone⟩

/-- A registration, with a backend whose next deletion fails. -/
def sampleFailing : Registry × Scripted :=
  let registered :=
    (create (.ofSeconds 30)).register Scripted.backend "a" "x" ⟨false, none, []⟩ .create
  (registered.2.1, registered.2.2.failNext .delete 1 (.backend "delete" "down"))

def sampleFailed : Except Failure (Option Node) × Registry × Scripted :=
  sampleFailing.1.unregister Scripted.backend "a" sampleFailing.2

/-- Another component is published, a key is written, and an id is taken. -/
def sampleUses : List (Use Scripted) := [
  .register Scripted.backend "b" "y" ⟨false, none, []⟩,
  .beside (Scripted.put "k" "v"),
  .register Scripted.backend "a" "x" ⟨true, none, []⟩]

/-- While the deletion fails another component is published and an id of the withdrawn one
is taken; its second withdrawal answers that there is none. -/
theorem failed_withdrawal_forgets_beside :
    let w := runAll sampleUses sampleFailed.2
    sampleFailed.1 = .error (.error (.backend "delete" "down")) ∧
      Unpublished "a" sampleUses sampleFailed.2 ∧
      (w.1.node? "b").isSome = true ∧ w.2.counters.get? "node_id/a" = some 2 ∧
      w.1.unregister Scripted.backend "a" w.2 = (.ok none, w) := by
  intro w
  have hfailed : sampleFailed.1 = .error (.error (.backend "delete" "down")) := rfl
  have hunpublished : Unpublished "a" sampleUses sampleFailed.2 := ⟨rfl, rfl, rfl, trivial⟩
  have hforgets := (failed_withdrawal_forgets sampleFailing.1 Scripted.backend "a" sampleFailing.2
    (.error (.backend "delete" "down"))).2 hfailed
  obtain ⟨-, hagain⟩ := hforgets.2 sampleUses hunpublished
  exact ⟨hfailed, hunpublished, by decide +kernel, by decide +kernel, hagain Scripted.backend⟩

/-- The deletion fails, and the node that was registered is no longer known; the next
withdrawal answers that there is none, while its key stays stored. -/
theorem withdrawal_lost :
    let again := sampleFailed.2.1.unregister Scripted.backend "a" sampleFailed.2.2
    (sampleFailing.1.node? "a").isSome = true ∧
      sampleFailed.1 = .error (.error (.backend "delete" "down")) ∧
      sampleFailed.2.1.node? "a" = none ∧ again.1 = .ok none ∧
      again.2.2.log.count (.delete "service/a/x") = 1 ∧
      again.2.2.entries.contains "service/a/x" = true := by
  intro again
  exact ⟨by decide +kernel, rfl, by decide +kernel, rfl, by decide +kernel, by decide +kernel⟩

end Registry

end Rollcall
