import Rollcall.Proofs.Replacing
import Rollcall.Proofs.Target

/-!
Resolvers that are asked from several sides at once. A call reads the addresses of a
target from the cache and tells them in a step of its own; the cache stores a change and
then has the resolvers of its listener resolve again. Every change is told: where no call is
in progress, each active resolver of the listener has told what the cache gives now. But a
call may be overtaken between its two steps; then what it tells last is what it read before,
and the resolver stays out of date until something else changes (`stale_at_rest`).
Main statements: `Inv.covered_did`, that a change reaches every active resolver or is on its
way to it, `run_update`, and `current_unless_overtaken`.
-/

namespace Rollcall

namespace Overtaking

structure Resolver where
  builder : Nat
  id : Nat
  target : Target
deriving DecidableEq

/-- What a call has read for a resolver, after so many changes of the cache. -/
structure Reading where
  resolver : Resolver
  moment : Nat
  push : Push
deriving DecidableEq

inductive Call where
  /-- A change has been stored and its listener is still to be asked. -/
  | notifying (service : String)
  | resolving (waiting : List Resolver)
  | telling (reading : Reading) (waiting : List Resolver)
deriving DecidableEq

inductive Move where
  /-- A builder is created and becomes the listener of the cache. -/
  | listen (scheme : String)
  /-- Something else becomes the listener, or nothing. -/
  | silence
  | store (service : String) (members : Members)
  | build (builder : Nat) (text : String)
  /-- A resolver that was built is asked to resolve. -/
  | resolve (n : Nat)
  | close (n : Nat)
  /-- A call takes its next step. Of the resolvers that wait it may turn to any. -/
  | work (k n : Nat)

def contents (m : Membership) (changes : List (String × Members)) : Membership :=
  changes.foldl (fun m change => (m.replace change.1 change.2).1) m

structure World where
  first : Membership
  changes : List (String × Members)
  builders : List ResolverBuilder
  listener : Option Nat
  built : List Resolver
  calls : List Call
  told : List Reading

namespace World

def start (first : Membership) : World := ⟨first, [], [], none, [], [], []⟩

def contentsAt (w : World) (moment : Nat) : Membership := contents w.first (w.changes.take moment)

def membership (w : World) : Membership := contents w.first w.changes

/-- The resolvers of the listener that a change of a service concerns. -/
def affected (w : World) (service : String) : List Resolver :=
  match w.listener with
  | none => []
  | some i =>
      match w.builders[i]? with
      | none => []
      | some b => (b.affected service).map (fun row => ⟨i, row.1, row.2⟩)

def read (w : World) (r : Resolver) : Reading :=
  ⟨r, w.changes.length, r.target.resolve w.membership⟩

def work (w : World) (k n : Nat) : Call → World
  | .notifying service => { w with calls := w.calls.set k (.resolving (w.affected service)) }
  | .resolving waiting =>
      match waiting[n]? with
      | none => w
      | some r => { w with calls := w.calls.set k (.telling (w.read r) (waiting.eraseIdx n)) }
  | .telling reading waiting =>
      { w with calls := w.calls.set k (.resolving waiting), told := w.told ++ [reading] }

def step (w : World) : Move → World
  | .listen scheme =>
      { w with builders := w.builders ++ [.create scheme], listener := some w.builders.length }
  | .silence => { w with listener := none }
  | .store service members =>
      { w with
        changes := w.changes ++ [(service, members)]
        calls := w.calls ++ [.notifying service] }
  | .build i text =>
      match w.builders[i]? with
      | none => w
      | some b =>
          match b.build text with
          | .error _ => w
          | .ok (id, target, b) =>
              { w with
                builders := w.builders.set i b
                built := w.built ++ [⟨i, id, target⟩]
                calls := w.calls ++ [.resolving [⟨i, id, target⟩]] }
  | .resolve n =>
      match w.built[n]? with
      | none => w
      | some r => { w with calls := w.calls ++ [.resolving [r]] }
  | .close n =>
      match w.built[n]? with
      | none => w
      | some r =>
          match w.builders[r.builder]? with
          | none => w
          | some b => { w with builders := w.builders.set r.builder (b.close r.id) }
  | .work k n => ((w.calls[k]?).map (w.work k n)).getD w

def run (w : World) (moves : List Move) : World := moves.foldl step w

def Idle (w : World) : Prop := ∀ call ∈ w.calls, call = .resolving []

instance (w : World) : Decidable w.Idle :=
  inferInstanceAs (Decidable (∀ call ∈ w.calls, call = .resolving []))

def IsActive (w : World) (r : Resolver) : Prop :=
  ∃ b, w.builders[r.builder]? = some b ∧ b.active.get? r.id = some r.target

def toldTo (w : World) (r : Resolver) : List Reading :=
  w.told.filter (fun reading => reading.resolver = r)

def Unchanged (w : World) (service : String) (moment : Nat) : Prop :=
  ∀ change ∈ w.changes.drop moment, change.1 ≠ service

/-- A call will tell a resolver what its component has become. -/
def Brings (w : World) (r : Resolver) : Call → Prop
  | .notifying service => service = r.target.selector.component
  | .resolving waiting => r ∈ waiting
  | .telling reading waiting =>
      r ∈ waiting ∨
        reading.resolver = r ∧ w.Unchanged r.target.selector.component reading.moment

/-- A resolver has been told what its component has become, or is going to be. -/
inductive Covers (w : World) (r : Resolver) : Prop where
  | told {reading : Reading} (htold : reading ∈ w.told) (hresolver : reading.resolver = r)
      (hunchanged : w.Unchanged r.target.selector.component reading.moment)
  | called {call : Call} (hcall : call ∈ w.calls) (hbrings : w.Brings r call)

/-- A reading that was told, or is about to be. -/
def Has (w : World) (reading : Reading) : Prop :=
  reading ∈ w.told ∨ ∃ waiting, .telling reading waiting ∈ w.calls

/-- A reading of what the cache held at its moment. -/
structure IsTrue (w : World) (reading : Reading) : Prop where
  moment_le : reading.moment ≤ w.changes.length
  push_eq : reading.push = reading.resolver.target.resolve (w.contentsAt reading.moment)

end World

/-- All that a step can do. -/
inductive Did (w : World) : World → Prop where
  | stays : Did w w
  | listens (scheme : String) :
      Did w { w with
        builders := w.builders ++ [.create scheme]
        listener := some w.builders.length }
  | falls : Did w { w with listener := none }
  | stores (service : String) (members : Members) :
      Did w { w with
        changes := w.changes ++ [(service, members)]
        calls := w.calls ++ [.notifying service] }
  | builds {i : Nat} {b : ResolverBuilder} {text : String} {target : Target}
      (hb : w.builders[i]? = some b) (hparsed : Target.parse text b.scheme = .ok target) :
      Did w { w with
        builders := w.builders.set i
          { b with active := b.active.insert b.nextId target, nextId := b.nextId + 1 }
        built := w.built ++ [⟨i, b.nextId, target⟩]
        calls := w.calls ++ [.resolving [⟨i, b.nextId, target⟩]] }
  | asks (r : Resolver) : Did w { w with calls := w.calls ++ [.resolving [r]] }
  | closes {r : Resolver} {b : ResolverBuilder} (hb : w.builders[r.builder]? = some b) :
      Did w { w with builders := w.builders.set r.builder (b.close r.id) }
  | notifies {k : Nat} {service : String} (hcall : w.calls[k]? = some (.notifying service)) :
      Did w { w with calls := w.calls.set k (.resolving (w.affected service)) }
  | reads {k n : Nat} {r : Resolver} {waiting : List Resolver}
      (hcall : w.calls[k]? = some (.resolving waiting)) (hr : waiting[n]? = some r) :
      Did w { w with calls := w.calls.set k (.telling (w.read r) (waiting.eraseIdx n)) }
  | tells {k : Nat} {reading : Reading} {waiting : List Resolver}
      (hcall : w.calls[k]? = some (.telling reading waiting)) :
      Did w { w with
        calls := w.calls.set k (.resolving waiting)
        told := w.told ++ [reading] }

/-- One step of a call: it stores, reads for a resolver, tells what it has read, or is over. -/
theorem work_did {w : World} {k : Nat} {call : Call} (hcall : w.calls[k]? = some call)
    (n : Nat) : Did w (w.work k n call) := by
  cases call with
  | notifying service => exact .notifies hcall
  | telling reading waiting => exact .tells hcall
  | resolving waiting =>
      rw [World.work]
      cases hr : waiting[n]? with
      | none => exact .stays
      | some r => exact .reads hcall hr

/-- Each move does one of the things that `Did` lists. What follows splits on these alone. -/
theorem step_did (w : World) (move : Move) : Did w (w.step move) := by
  cases move with
  | listen scheme => exact .listens scheme
  | silence => exact .falls
  | store service members => exact .stores service members
  | build i text =>
      rw [World.step]
      cases hb : w.builders[i]? with
      | none => exact .stays
      | some b =>
          simp only [ResolverBuilder.build]
          cases hparsed : Target.parse text b.scheme with
          | error e => exact .stays
          | ok target => exact .builds hb hparsed
  | resolve n =>
      rw [World.step]
      cases w.built[n]? with
      | none => exact .stays
      | some r => exact .asks r
  | close n =>
      rw [World.step]
      cases w.built[n]? with
      | none => exact .stays
      | some r =>
          cases hb : w.builders[r.builder]? with
          | none =>
              simp only [hb]
              exact .stays
          | some b =>
              simp only [hb]
              exact .closes hb
  | work k n =>
      rw [World.step]
      cases hcall : w.calls[k]? with
      | none => exact .stays
      | some call => exact work_did hcall n

/-- What holds at any time: the active resolvers of the listener are covered. -/
structure Inv (w : World) : Prop where
  parsed : ∀ {b id target}, b ∈ w.builders → b.active.get? id = some target →
    ∃ text, Target.parse text b.scheme = .ok target
  readings : ∀ {reading}, w.Has reading → w.IsTrue reading
  covered : ∀ {r}, w.listener = some r.builder → w.IsActive r → w.Covers r

/-- What a target resolves to does not depend on changes of other components than its own. -/
theorem resolve_contents {text scheme : String} {target : Target}
    (hparsed : Target.parse text scheme = .ok target) {changes : List (String × Members)}
    (hother : ∀ change ∈ changes, change.1 ≠ target.selector.component) (m : Membership) :
    target.resolve (contents m changes) = target.resolve m := by
  induction changes generalizing m with
  | nil => rfl
  | cons change rest ih =>
      rw [contents, List.foldl_cons]
      refine (ih (fun other h => hother other (List.mem_cons_of_mem _ h)) _).trans ?_
      exact Target.resolve_replace_of_ne hparsed (hother change List.mem_cons_self).symm m change.2

section

variable {w : World}

/-- What the cache holds is what it held at a moment, with the changes since. -/
theorem membership_eq (w : World) (moment : Nat) :
    w.membership = contents (w.contentsAt moment) (w.changes.drop moment) := by
  rw [World.membership, World.contentsAt, contents, contents, contents, ← List.foldl_append,
    List.take_append_drop]

/-- So as long as its component has not changed, a target resolves to what it did. -/
theorem resolve_unchanged {text scheme : String} {target : Target}
    (hparsed : Target.parse text scheme = .ok target) {moment : Nat}
    (h : w.Unchanged target.selector.component moment) :
    target.resolve (w.contentsAt moment) = target.resolve w.membership := by
  rw [membership_eq w moment, resolve_contents hparsed h]

/-- What has not changed since one moment has not since a later one. -/
theorem World.Unchanged.mono {service : String} {moment later : Nat}
    (h : w.Unchanged service moment) (hle : moment ≤ later) : w.Unchanged service later :=
  fun change hchange => h change (List.drop_subset_drop_left w.changes hle hchange)

theorem unchanged_now (w : World) (service : String) : w.Unchanged service w.changes.length := by
  intro change hchange
  rw [List.drop_length] at hchange
  cases hchange

/-- An active resolver of the listener is among those that a change of its component
concerns. -/
theorem mem_affected {r : Resolver} (hlistener : w.listener = some r.builder)
    (h : w.IsActive r) : r ∈ w.affected r.target.selector.component := by
  obtain ⟨b, hb, hactive⟩ := h
  rw [World.affected, hlistener]
  simp only [hb]
  refine List.mem_map.mpr ⟨(r.id, r.target), ?_, rfl⟩
  exact List.mem_filter.mpr ⟨Table.get?_eq_some_iff.mp hactive, decide_eq_true rfl⟩

theorem mem_set_of_some {k : Nat} {old : Call} {calls : List Call} (hold : calls[k]? = some old)
    (new : Call) : new ∈ calls.set k new :=
  List.mem_set (List.getElem?_eq_some_iff.mp hold).1 new

/-- Of the calls only the one that has gone on is no more what it was. -/
theorem eq_of_gone {k : Nat} {old new call : Call} {calls : List Call}
    (hold : calls[k]? = some old) (hcall : call ∈ calls) (hgone : call ∉ calls.set k new) :
    call = old := by
  obtain ⟨j, hj⟩ := List.mem_iff_getElem?.mp hcall
  by_cases hkj : k = j
  · exact Option.some.inj (hj.symm.trans (hkj ▸ hold))
  · exact absurd (List.mem_of_getElem? ((List.getElem?_set_ne hkj).trans hj)) hgone

theorem Inv.start (first : Membership) : Inv (World.start first) where
  parsed := nofun
  readings h := by
    obtain h | ⟨_, h⟩ := h <;> cases h
  covered h := nomatch h

variable {w' : World}

theorem Inv.parsed_did (hinv : Inv w) (h : Did w w') {b : ResolverBuilder} {id : Nat}
    {target : Target} (hb : b ∈ w'.builders) (hactive : b.active.get? id = some target) :
    ∃ text, Target.parse text b.scheme = .ok target := by
  cases h with
  | listens scheme =>
      obtain hb | hb := List.mem_append.mp hb
      · exact hinv.parsed hb hactive
      · rw [List.mem_singleton.mp hb] at hactive
        cases hactive
  | @builds i old text target' hold hparsed =>
      obtain hb | rfl := List.mem_or_eq_of_mem_set hb
      · exact hinv.parsed hb hactive
      · rw [Table.get?_insert] at hactive
        split at hactive
        · cases hactive
          exact ⟨text, hparsed⟩
        · exact hinv.parsed (b := old) (List.mem_of_getElem? hold) hactive
  | @closes r old hold =>
      obtain hb | rfl := List.mem_or_eq_of_mem_set hb
      · exact hinv.parsed hb hactive
      · rw [ResolverBuilder.close, Table.get?_erase] at hactive
        split at hactive
        · cases hactive
        · exact hinv.parsed (b := old) (List.mem_of_getElem? hold) hactive
  | stays | falls | stores | asks | notifies | reads | tells => exact hinv.parsed hb hactive

theorem read_isTrue (w : World) (r : Resolver) : w.IsTrue (w.read r) where
  moment_le := Nat.le_refl _
  push_eq := by
    rw [World.contentsAt, World.read, List.take_length]
    rfl

/-- A later change leaves what was read before it as true as it was. -/
theorem World.IsTrue.stores {reading : Reading} (h : w.IsTrue reading) (service : String)
    (members : Members) (calls : List Call) :
    World.IsTrue { w with changes := w.changes ++ [(service, members)], calls } reading where
  moment_le := by
    rw [List.length_append]
    exact Nat.le_trans h.moment_le (Nat.le_add_right _ _)
  push_eq := by
    rw [World.contentsAt, List.take_append_of_le_length h.moment_le]
    exact h.push_eq

theorem World.Unchanged.stores {component service : String} {moment : Nat}
    (h : w.Unchanged component moment) (hle : moment ≤ w.changes.length)
    (hne : component ≠ service) (members : Members) (calls : List Call) :
    World.Unchanged { w with changes := w.changes ++ [(service, members)], calls } component
      moment := by
  intro change hchange
  rw [List.drop_append_of_le_length hle] at hchange
  obtain hchange | hchange := List.mem_append.mp hchange
  · exact h change hchange
  · rw [List.mem_singleton.mp hchange]
    exact hne.symm

theorem Did.has (h : Did w w') {reading : Reading} (hreading : w'.Has reading) :
    w.Has reading ∨ ∃ r, reading = w.read r := by
  obtain htold | ⟨waiting, hwaiting⟩ := hreading
  · cases h with
    | tells hcall =>
        obtain htold | htold := List.mem_append.mp htold
        · exact .inl (.inl htold)
        · rw [List.mem_singleton.mp htold]
          exact .inl (.inr ⟨_, List.mem_of_getElem? hcall⟩)
    | stays | listens | falls | stores | builds | asks | closes | notifies | reads =>
        exact .inl (.inl htold)
  · cases h with
    | stays | listens | falls | closes => exact .inl (.inr ⟨waiting, hwaiting⟩)
    | stores | builds | asks =>
        obtain hwaiting | heq := List.mem_append.mp hwaiting
        · exact .inl (.inr ⟨waiting, hwaiting⟩)
        · cases List.mem_singleton.mp heq
    | notifies | tells =>
        obtain hwaiting | heq := List.mem_or_eq_of_mem_set hwaiting
        · exact .inl (.inr ⟨waiting, hwaiting⟩)
        · cases heq
    | @reads _ _ r _ _ _ =>
        obtain hwaiting | heq := List.mem_or_eq_of_mem_set hwaiting
        · exact .inl (.inr ⟨waiting, hwaiting⟩)
        · cases heq
          exact .inr ⟨r, rfl⟩

/-- A reading of what the cache held at its moment stays one, since later changes do not
reach back. -/
theorem Did.isTrue (h : Did w w') {reading : Reading} (hreading : w.IsTrue reading) :
    w'.IsTrue reading := by
  cases h with
  | stores service members => exact hreading.stores service members _
  | stays | listens | falls | builds | asks | closes | notifies | reads | tells =>
      exact ⟨hreading.moment_le, hreading.push_eq⟩

/-- Every reading, told or still to be, is of what the cache held at its moment. -/
theorem Inv.readings_did (hinv : Inv w) (h : Did w w') {reading : Reading}
    (hreading : w'.Has reading) : w'.IsTrue reading := by
  obtain hbefore | ⟨r, rfl⟩ := h.has hreading
  · exact h.isTrue (hinv.readings hbefore)
  · exact h.isTrue (read_isTrue w r)

/-- A resolver of the listener that was not active before has just been built. -/
theorem Did.isActive (h : Did w w') {r : Resolver} (hlistener : w'.listener = some r.builder)
    (hr : w'.IsActive r) :
    (w.listener = some r.builder ∧ w.IsActive r) ∨ .resolving [r] ∈ w'.calls := by
  obtain ⟨b, hb, hactive⟩ := hr
  cases h with
  | listens scheme =>
      rw [← Option.some.inj hlistener, List.getElem?_concat_length] at hb
      cases hb
      cases hactive
  | falls => cases hlistener
  | @builds i old text target hold hparsed =>
      obtain ⟨hi, rfl⟩ | ⟨-, hb⟩ := getElem?_set_cases hb
      · rw [Table.get?_insert] at hactive
        split at hactive
        · rename_i hid
          obtain ⟨builder, id, target'⟩ := r
          cases hi
          cases hid
          cases hactive
          exact .inr (List.mem_append_right _ List.mem_cons_self)
        · exact .inl ⟨hlistener, old, hi ▸ hold, hactive⟩
      · exact .inl ⟨hlistener, b, hb, hactive⟩
  | @closes closed old hold =>
      obtain ⟨hi, rfl⟩ | ⟨-, hb⟩ := getElem?_set_cases hb
      · rw [ResolverBuilder.close, Table.get?_erase] at hactive
        split at hactive
        · cases hactive
        · exact .inl ⟨hlistener, old, hi ▸ hold, hactive⟩
      · exact .inl ⟨hlistener, b, hb, hactive⟩
  | stays | stores | asks | notifies | reads | tells => exact .inl ⟨hlistener, b, hb, hactive⟩

/-- A resolver stays covered, unless it was by a call that has gone on. -/
theorem World.Covers.grow {r : Resolver} (h : w.Covers r) (w' : World)
    (hchanges : w'.changes = w.changes) (htold : w.told ⊆ w'.told) :
    w'.Covers r ∨ ∃ call ∈ w.calls, call ∉ w'.calls ∧ w.Brings r call := by
  have hunchanged : ∀ {moment}, w.Unchanged r.target.selector.component moment →
      w'.Unchanged r.target.selector.component moment := fun h => by
    rw [World.Unchanged, hchanges]
    exact h
  cases h with
  | told h hresolver hun => exact .inl (.told (htold h) hresolver (hunchanged hun))
  | @called call hcall hbrings =>
      by_cases hstays : call ∈ w'.calls
      · refine .inl (.called hstays ?_)
        cases call with
        | notifying | resolving => exact hbrings
        | telling reading waiting => exact hbrings.imp_right (And.imp_right hunchanged)
      · exact .inr ⟨call, hcall, hstays, hbrings⟩

/-- A change of its component leaves a resolver to be told, but then the call that stored
it is going to have it resolve. -/
theorem Inv.covers_stores (hinv : Inv w) {r : Resolver} (h : w.Covers r) (service : String)
    (members : Members) :
    World.Covers { w with
      changes := w.changes ++ [(service, members)]
      calls := w.calls ++ [.notifying service] } r := by
  by_cases hservice : r.target.selector.component = service
  · exact .called (List.mem_append_right _ List.mem_cons_self) hservice.symm
  · cases h with
    | told htold hresolver hun =>
        have hle := (hinv.readings (.inl htold)).moment_le
        exact .told htold hresolver (hun.stores hle hservice members _)
    | @called call hcall hbrings =>
        refine .called (List.mem_append_left _ hcall) ?_
        cases call with
        | notifying | resolving => exact hbrings
        | telling reading waiting =>
            have hle := (hinv.readings (.inr ⟨waiting, hcall⟩)).moment_le
            exact hbrings.imp_right (And.imp_right fun hun => hun.stores hle hservice members _)

/-- An active resolver of the listener stays covered by every step: it has been told what
its component has become, or a call in progress is going to tell it. -/
theorem Inv.covered_did (hinv : Inv w) (h : Did w w') {r : Resolver}
    (hlistener : w'.listener = some r.builder) (hr : w'.IsActive r) : w'.Covers r := by
  obtain ⟨hbefore, hactive⟩ | hbuilt := h.isActive hlistener hr
  case inr => exact .called hbuilt List.mem_cons_self
  have hcovers := hinv.covered hbefore hactive
  -- It is left to see what becomes of the call that has gone on.
  have hgrow := hcovers.grow w'
  cases h with
  | stores service members => exact hinv.covers_stores hcovers service members
  | stays | listens | falls | closes =>
      obtain h | ⟨call, hcall, hgone, -⟩ := hgrow rfl (List.Subset.refl _)
      · exact h
      · exact absurd hcall hgone
  | builds | asks =>
      obtain h | ⟨call, hcall, hgone, -⟩ := hgrow rfl (List.Subset.refl _)
      · exact h
      · exact absurd (List.mem_append_left _ hcall) hgone
  | notifies hturn =>
      obtain h | ⟨call, hcall, hgone, hbrings⟩ := hgrow rfl (List.Subset.refl _)
      · exact h
      · obtain rfl := eq_of_gone hturn hcall hgone
        exact .called (mem_set_of_some hturn _) (hbrings ▸ mem_affected hbefore hactive)
  | @reads k n turn waiting hturn hfound =>
      obtain h | ⟨call, hcall, hgone, hbrings⟩ := hgrow rfl (List.Subset.refl _)
      · exact h
      · obtain rfl := eq_of_gone hturn hcall hgone
        refine .called (mem_set_of_some hturn _) ?_
        -- Either the call has turned to this resolver, or it has yet to.
        obtain ⟨i, hi⟩ := List.mem_iff_getElem?.mp hbrings
        by_cases hin : i = n
        · rw [← hin, hi] at hfound
          exact .inr ⟨(Option.some.inj hfound).symm, unchanged_now w _⟩
        · exact .inl (List.mem_eraseIdx_iff_getElem?.mpr ⟨i, hin, hi⟩)
  | tells hturn =>
      obtain h | ⟨call, hcall, hgone, hbrings⟩ := hgrow rfl (List.subset_append_left _ _)
      · exact h
      · obtain rfl := eq_of_gone hturn hcall hgone
        obtain hwaits | ⟨hresolver, hun⟩ := hbrings
        · exact .called (mem_set_of_some hturn _) hwaits
        · exact .told (List.mem_append_right _ List.mem_cons_self) hresolver hun

theorem Inv.did (hinv : Inv w) (h : Did w w') : Inv w' where
  parsed := hinv.parsed_did h
  readings := hinv.readings_did h
  covered := hinv.covered_did h

/-- Any interleaving keeps it. Once no call is in progress, to be covered is to have been
told. -/
theorem Inv.run (hinv : Inv w) (moves : List Move) : Inv (w.run moves) := by
  induction moves generalizing w with
  | nil => exact hinv
  | cons move moves ih => exact ih (hinv.did (step_did w move))

/-- A call that nothing interrupts has each resolver tell what the cache holds. -/
theorem run_resolving {k : Nat} {waiting : List Resolver}
    (hcall : w.calls[k]? = some (.resolving waiting)) :
    w.run (List.replicate (2 * waiting.length) (.work k 0)) =
      { w with
        calls := w.calls.set k (.resolving [])
        told := w.told ++ waiting.map w.read } := by
  have hk := (List.getElem?_eq_some_iff.mp hcall).1
  induction waiting generalizing w with
  | nil =>
      rw [set_of_getElem? hcall, List.map_nil, List.append_nil]
      rfl
  | cons r waiting ih =>
      have hread : w.step (.work k 0) =
          { w with calls := w.calls.set k (.telling (w.read r) waiting) } := by
        rw [World.step, hcall]
        rfl
      have htold : (w.step (.work k 0)).step (.work k 0) =
          { w with
            calls := w.calls.set k (.resolving waiting)
            told := w.told ++ [w.read r] } := by
        rw [hread]
        simp only [World.step, List.getElem?_set_self hk, Option.map_some, Option.getD_some,
          World.work, List.set_set]
      have hmoves : List.replicate (2 * (waiting.length + 1)) (Move.work k 0) =
          .work k 0 :: .work k 0 :: List.replicate (2 * waiting.length) (.work k 0) := rfl
      have hrest := ih (w := (w.step (.work k 0)).step (.work k 0))
        (by rw [htold]; exact List.getElem?_set_self hk)
        (by rw [htold]; exact (List.length_set).symm ▸ hk)
      rw [List.length_cons, hmoves]
      refine hrest.trans ?_
      simp only [htold, List.set_set, List.map_cons, List.append_assoc, List.cons_append,
        List.nil_append]
      rfl

/-- A change that nothing interrupts has all resolvers of its service tell what the cache
then holds. -/
theorem run_update (w : World) (service : String) (members : Members) :
    let stored := w.step (.store service members)
    let affected := w.affected service
    let work := .work w.calls.length 0
    stored.run (work :: List.replicate (2 * affected.length) work) =
      { stored with
        calls := w.calls ++ [.resolving []]
        told := w.told ++ affected.map stored.read } := by
  intro stored affected work
  have hcall : stored.calls[w.calls.length]? = some (.notifying service) :=
    List.getElem?_concat_length
  have hset (old new : Call) : (w.calls ++ [old]).set w.calls.length new = w.calls ++ [new] := by
    rw [List.set_append_right _ _ (Nat.le_refl _), Nat.sub_self, List.set_cons_zero]
  have hnotified : stored.step work =
      { stored with calls := w.calls ++ [.resolving affected] } := by
    rw [World.step, hcall]
    exact congrArg (fun calls => { stored with calls }) (hset _ _)
  rw [World.run, List.foldl_cons, hnotified]
  refine (run_resolving List.getElem?_concat_length).trans ?_
  simp only [hset]
  rfl

end

/-- However calls and changes interleave: where no call is in progress, the last that an
active resolver of the listener has told is what the cache gave at some moment; it is what
the cache gives now, unless it was read before another that was told earlier, and that one
is: the call was overtaken between its steps. -/
theorem current_unless_overtaken (first : Membership) (moves : List Move) :
    let w := (World.start first).run moves
    w.Idle → ∀ r, w.listener = some r.builder → w.IsActive r →
      ∃ last, (w.toldTo r).getLast? = some last ∧ last.moment ≤ w.changes.length ∧
        last.push = r.target.resolve (w.contentsAt last.moment) ∧
        (last.push = r.target.resolve w.membership ∨
          ∃ reading ∈ w.toldTo r, last.moment < reading.moment ∧
            w.Unchanged r.target.selector.component reading.moment ∧
            reading.push = r.target.resolve w.membership) := by
  intro w hidle r hlistener hactive
  have hinv : Inv w := (Inv.start first).run moves
  obtain ⟨b, hb, hlisted⟩ := hactive
  obtain ⟨text, hparsed⟩ := hinv.parsed (List.mem_of_getElem? hb) hlisted
  have htrue : ∀ reading ∈ w.toldTo r, reading.moment ≤ w.changes.length ∧
      reading.push = r.target.resolve (w.contentsAt reading.moment) := by
    intro reading hreading
    obtain ⟨htold, hresolver⟩ := List.mem_filter.mp hreading
    obtain ⟨hle, hpush⟩ := hinv.readings (.inl htold)
    rw [of_decide_eq_true hresolver] at hpush
    exact ⟨hle, hpush⟩
  have hcurrent : ∀ reading ∈ w.toldTo r, w.Unchanged r.target.selector.component reading.moment →
      reading.push = r.target.resolve w.membership := by
    intro reading hreading hunchanged
    rw [(htrue reading hreading).2, resolve_unchanged hparsed hunchanged]
  have htold : ∃ reading ∈ w.toldTo r,
      w.Unchanged r.target.selector.component reading.moment := by
    cases hinv.covered hlistener ⟨b, hb, hlisted⟩ with
    | told htold hresolver hunchanged =>
        exact ⟨_, List.mem_filter.mpr ⟨htold, decide_eq_true hresolver⟩, hunchanged⟩
    | called hcall hbrings =>
        rw [hidle _ hcall] at hbrings
        cases hbrings
  obtain ⟨reading, hreading, hunchanged⟩ := htold
  obtain ⟨last, hlast⟩ : ∃ last, (w.toldTo r).getLast? = some last :=
    ⟨_, List.getLast?_eq_some_getLast (List.ne_nil_of_mem hreading)⟩
  have hmem := List.mem_of_getLast? hlast
  obtain ⟨hle, hpush⟩ := htrue last hmem
  refine ⟨last, hlast, hle, hpush, ?_⟩
  by_cases hafter : reading.moment ≤ last.moment
  · exact .inl (hcurrent last hmem (hunchanged.mono hafter))
  · exact .inr ⟨reading, hreading, Nat.lt_of_not_le hafter, hunchanged,
      hcurrent reading hreading hunchanged⟩

def sampleResolver : Resolver := ⟨0, 1, ⟨"rpc", ⟨"a", none⟩⟩⟩

def sampleMembers (addresses : List String) : Members :=
  Membership.byAddress (addresses.map (fun address => Node.create "a" address 1 .zero))

/-- A resolver is built while two changes are stored, and three calls tell it in the order
in which they have read. -/
def sampleInOrder : List Move := [
  .listen "rpc", .build 0 "a", .store "a" (sampleMembers ["x"]), .work 0 0, .work 1 0,
  .store "a" (sampleMembers ["x", "y"]), .work 0 0, .work 1 0, .work 2 0, .work 2 0, .work 1 0,
  .work 2 0]

/-- Two changes and the build are told in the order in which they were read, and the last
that is told is what the cache gives. -/
theorem current_unless_overtaken_in_order :
    let w := (World.start .empty).run sampleInOrder
    w.Idle ∧ w.listener = some 0 ∧ w.IsActive sampleResolver ∧
      ∃ last, (w.toldTo sampleResolver).getLast? = some last ∧
        last.push = .addresses ["x", "y"] := by
  intro w
  have hidle : w.Idle := by decide +kernel
  have hactive : w.IsActive sampleResolver := ⟨_, rfl, rfl⟩
  have hnow : sampleResolver.target.resolve w.membership = .addresses ["x", "y"] := by
    decide +kernel
  have hmoment : (w.toldTo sampleResolver).getLast?.map Reading.moment = some 2 := by
    decide +kernel
  have hmoments : ∀ reading ∈ w.toldTo sampleResolver, reading.moment ≤ 2 := by decide +kernel
  obtain ⟨last, hlast, -, -, hcurrent⟩ :=
    current_unless_overtaken .empty sampleInOrder hidle sampleResolver rfl hactive
  refine ⟨hidle, rfl, hactive, last, hlast, ?_⟩
  obtain hcurrent | ⟨reading, hreading, hlater, -, -⟩ := hcurrent
  · exact hcurrent.trans hnow
  · rw [hlast] at hmoment
    rw [Option.some.inj hmoment] at hlater
    exact absurd (hmoments reading hreading) (Nat.not_le_of_lt hlater)

/-- A resolver is built and asked again. Before that call tells what it has read a change
is stored and told. -/
def sampleOvertaken : List Move := [
  .listen "rpc", .store "a" (sampleMembers ["x"]), .work 0 0, .build 0 "a", .work 1 0, .work 1 0,
  .resolve 0, .work 2 0, .store "a" (sampleMembers ["x", "y"]), .work 3 0, .work 3 0, .work 3 0,
  .work 2 0]

/-- A resolver is built, and then another builder becomes the listener. -/
def sampleUnheard : List Move := [
  .listen "rpc", .store "a" (sampleMembers ["x"]), .work 0 0, .build 0 "a", .work 1 0, .work 1 0,
  .listen "rpc", .store "a" (sampleMembers ["x", "y"]), .work 2 0]

/-- An active resolver need not have last told what the cache gives: its call may have been
overtaken, or its builder no longer be the listener. -/
theorem stale_at_rest :
    let overtaken := (World.start .empty).run sampleOvertaken
    let unheard := (World.start .empty).run sampleUnheard
    (overtaken.Idle ∧ overtaken.listener = some 0 ∧ overtaken.IsActive sampleResolver ∧
      (overtaken.toldTo sampleResolver).getLast?.map Reading.push = some (.addresses ["x"]) ∧
      sampleResolver.target.resolve overtaken.membership = .addresses ["x", "y"]) ∧
    (unheard.Idle ∧ unheard.listener = some 1 ∧ unheard.IsActive sampleResolver ∧
      (unheard.toldTo sampleResolver).getLast?.map Reading.push = some (.addresses ["x"]) ∧
      sampleResolver.target.resolve unheard.membership = .addresses ["x", "y"]) := by
  refine ⟨⟨?_, rfl, ⟨_, rfl, rfl⟩, ?_, ?_⟩, ?_, rfl, ⟨_, rfl, rfl⟩, ?_, ?_⟩
  · decide +kernel
  · decide +kernel
  · decide +kernel
  · decide +kernel
  · decide +kernel
  · decide +kernel

end Overtaking

end Rollcall
