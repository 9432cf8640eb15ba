import Rollcall.Proofs.Memory.Counters
import Rollcall.Proofs.Node.Written
import Rollcall.Registry

/-!
What the calls of a registry do to a backend in memory, as actions on it. Main
statements: `register_cases` and `unregister_cases`.
-/

namespace Rollcall

theorem Node.service_withSubServices (n : Node) (names : List String) :
    (n.withSubServices names).service = n.service := by
  unfold Node.withSubServices
  dsimp only
  split <;> rfl

theorem Node.address_withSubServices (n : Node) (names : List String) :
    (n.withSubServices names).address = n.address := by
  unfold Node.withSubServices
  dsimp only
  split <;> rfl

theorem Node.uniqueId_withSubServices (n : Node) (names : List String) :
    (n.withSubServices names).uniqueId = n.uniqueId := by
  unfold Node.withSubServices
  dsimp only
  split <;> rfl

theorem Node.ttl_withSubServices (n : Node) (names : List String) :
    (n.withSubServices names).ttl = n.ttl := by
  unfold Node.withSubServices
  dsimp only
  split <;> rfl

def Node.key (n : Node) : String := Key.service n.service n.address

namespace Memory

variable {m m' : Memory} {key : String} {n : Int}

/-- An id that a counter has given is a number of 64 bits, so it can be written as one. -/
theorem increment_bounds (h : m.increment key = (.ok n, m')) :
    -0x8000000000000000 ≤ n ∧ n < 0x8000000000000000 := by
  rcases m.increment_cases key with ⟨-, hcall⟩ | ⟨-, ⟨e, -, hcall⟩ | ⟨-, hcall⟩ |
    ⟨count, -, hlow, hnext, hcall⟩⟩
  · cases hcall.symm.trans h
  · cases hcall.symm.trans h
  · cases hcall.symm.trans h
  · obtain rfl := Except.ok.inj (Prod.mk.inj (hcall.symm.trans h)).1
    omega

/-- On an open backend a deletion succeeds, whether the key is there or not. -/
theorem delete_of_open (hopen : m.closed = false) (now : Instant) :
    m.delete key = (.ok (), m.act now (.delete key)) := by
  simp only [act, delete, hopen, Bool.false_eq_true, if_false]

end Memory

namespace Registry

def nodeFor (r : Registry) (component address : String) (options : RegisterOptions) (id : Int) :
    Node :=
  (Node.create component address id (options.ttl.getD r.defaultTtl)).withSubServices
    options.subServices

section

variable (r : Registry) (m : Memory) (now : Instant) (component address : String)
  (options : RegisterOptions) (id : Int)

theorem service_nodeFor : (r.nodeFor component address options id).service = component :=
  Node.service_withSubServices _ _

theorem address_nodeFor : (r.nodeFor component address options id).address = address :=
  Node.address_withSubServices _ _

/-- The node of a registration is published under the key of its component and address,
whatever its options. -/
theorem key_nodeFor : (r.nodeFor component address options id).key =
    Key.service component address := by
  rw [Node.key, service_nodeFor, address_nodeFor]

/-- A registration that publishes nothing has counted and swept at most; one that
publishes has counted and keeps its node alive. -/
theorem register_cases :
    let counted := m.act now (.increment (Key.nodeId component))
    let key := Key.service component address
    let ttl := options.ttl.getD r.defaultTtl
    (∃ answer m', r.register (Memory.backend now) component address options m = (answer, r, m') ∧
      (m' = m ∨ m' = counted ∨ m' = counted.act now .sweep) ∧
      ∀ id, answer = .ok id → options.isolate = true) ∨
    ∃ id deadline,
      let node := r.nodeFor component address options id
      options.isolate = false ∧ node.HasId64 ∧
      r.register (Memory.backend now) component address options m =
        (.ok id, { r with published := r.published.insert component node },
          counted.act now (.keepAlive key node.encode ttl)) ∧
      counted.act now (.keepAlive key node.encode ttl) =
        counted.renewing now key node.encode ttl deadline := by
  intro counted key ttl
  have hcall : ((Memory.backend now).increment (Key.nodeId component)).exec m =
      m.increment (Key.nodeId component) := rfl
  have hnone {isolated : Prop} (failure : Failure) :
      ∀ id, (.error failure : Except Failure Int) = .ok id → isolated := by
    intro id hanswer
    cases hanswer
  simp only [register, hcall]
  split
  · exact .inl ⟨_, m, rfl, .inl rfl, hnone _⟩
  · rcases hincrement : m.increment (Key.nodeId component) with ⟨failure | id, m₁⟩
    · have hm₁ : m₁ = counted := (congrArg Prod.snd hincrement).symm
      exact .inl ⟨_, m₁, rfl, .inr (.inl hm₁), hnone _⟩
    · obtain rfl : m₁ = counted := (congrArg Prod.snd hincrement).symm
      have hbounds := Memory.increment_bounds hincrement
      cases hisolate : options.isolate with
      | true => exact .inl ⟨.ok id, _, rfl, .inr (.inl rfl), fun _ _ => rfl⟩
      | false =>
          have hpublish (value : String) :
              ((Memory.backend now).keepAlive key value ttl).exec counted =
                counted.keepAlive now key value ttl := rfl
          have hnode : (Node.create component address id (options.ttl.getD r.defaultTtl)
              ).withSubServices options.subServices = r.nodeFor component address options id := rfl
          simp only [Bool.false_eq_true, if_false, hnode]
          rw [hpublish]
          rcases Memory.keepAlive_cases counted now key
              (r.nodeFor component address options id).encode ttl with
            ⟨failure, m', hrefused, hm'⟩ | ⟨deadline, hopen, haccepted⟩
          · left
            rw [hrefused]
            refine ⟨_, m', rfl, ?_, hnone _⟩
            rcases hm' with rfl | rfl
            · exact .inr (.inl rfl)
            · exact .inr (.inr rfl)
          · right
            have hact : counted.act now
                  (.keepAlive key (r.nodeFor component address options id).encode ttl) =
                counted.renewing now key (r.nodeFor component address options id).encode ttl
                  deadline := congrArg Prod.snd haccepted
            refine ⟨id, deadline, trivial, ?_, ?_, hact⟩
            · rw [Node.HasId64, nodeFor, Node.uniqueId_withSubServices]
              exact hbounds
            · rw [haccepted, hact]

theorem node?_unregister {σ : Type} (b : Backend σ) (s : σ) :
    (r.unregister b component s).2.1.node? component = none := by
  simp only [unregister, node?]
  cases hnode : r.published.get? component with
  | none => exact hnode
  | some node =>
      dsimp only
      split <;> simp only [Table.get?_erase, if_true]

/-- On an open backend a withdrawal of a component that is not known does nothing; otherwise
it forgets the node, deletes its key and tells its renewals to stop. -/
theorem unregister_cases (hopen : m.closed = false) :
    r.published.get? component = none ∧
        r.unregister (Memory.backend now) component m = (.ok none, r, m) ∨
      ∃ node, r.published.get? component = some node ∧
        r.unregister (Memory.backend now) component m =
          (.ok (some node), { r with published := r.published.erase component },
            m.act now (.delete node.key)) := by
  unfold unregister
  cases hnode : r.published.get? component with
  | none => exact .inl ⟨rfl, rfl⟩
  | some node =>
      right
      have hcall : ((Memory.backend now).delete (Key.service node.service node.address)).exec m =
          m.delete node.key := rfl
      have hdelete : m.delete node.key = (.ok (), m.act now (.delete node.key)) :=
        Memory.delete_of_open hopen now
      simp only [hcall, hdelete]
      exact ⟨node, rfl, rfl⟩

end

end Registry

end Rollcall
