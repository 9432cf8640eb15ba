import Mathlib.Data.Finset.Card
import Mathlib.Data.Finset.SymmDiff
import Rollcall.Feed
import Rollcall.Proofs.Table

/-!
What a feed records against what it has told. An update goes through the addresses in
the order of a hash set, which may be any, and its messages are accepted one by one,
while the receiver may read, refuse or go away in between. Each accepted message changes
the record as it changes the receiver's view. Main statements: `sends_step`, all that a
step can tell, and `Inv.run`.
-/

namespace Rollcall

open scoped symmDiff

namespace FeedMessage

def address : FeedMessage → String
  | .insert address _ | .remove address => address

def isRemoval : FeedMessage → Bool
  | .insert _ _ => false
  | .remove _ => true

/-- What a receiver holds after the message: it inserts nothing twice, and removes
nothing that it does not hold. -/
def receive? (held : Finset String) : FeedMessage → Option (Finset String)
  | .insert address _ => if address ∈ held then none else some (held ∪ {address})
  | .remove address => if address ∈ held then some (held.erase address) else none

def replay? (messages : List FeedMessage) : Option (Finset String) := messages.foldlM receive? ∅

/-- What is inserted is the endpoint of the address. -/
def Resolves : FeedMessage → Prop
  | .insert address endpoint => Endpoint.ofAddress? address = some endpoint
  | .remove _ => True

/-- To replay one message more is to apply it to what the receiver holds by then. -/
theorem replay?_append_one {messages : List FeedMessage} {message : FeedMessage}
    {held : Finset String} (h : replay? messages = some held) :
    replay? (messages ++ [message]) = receive? held message := by
  unfold replay? at h ⊢
  rw [List.foldlM_append, h]
  cases hafter : receive? held message with
  | none => simp [List.foldlM, hafter]
  | some after => simp [List.foldlM, hafter]

end FeedMessage

namespace Feed

def members (f : Feed) : Finset String := f.current.keys.toFinset

def room (f : Feed) : Nat := f.capacity - f.queue.length

def valid (addresses : List String) : Finset String :=
  (addresses.filter (fun address => (Endpoint.ofAddress? address).isSome)).toFinset

def distance (f : Feed) (addresses : List String) : Nat := (f.members ∆ valid addresses).card

variable {f f' : Feed} {addresses : List String} {address : String} {message : FeedMessage}

theorem mem_valid : address ∈ valid addresses ↔
    address ∈ addresses ∧ (Endpoint.ofAddress? address).isSome = true := by
  simp [valid]

theorem mem_members : address ∈ f.members ↔ f.current.contains address = true := by
  rw [members, List.mem_toFinset, Table.mem_keys]

theorem accepts_iff : f.accepts = true ↔ f.isOpen = true ∧ 0 < f.room := by
  simp only [accepts, room, Bool.and_eq_true, decide_eq_true_eq, Nat.sub_pos_iff_lt]

structure Takes (f : Feed) (message : FeedMessage) (f' : Feed) : Prop where
  accepts : f.accepts = true
  queue : f'.queue = f.queue ++ [message]
  capacity : f'.capacity = f.capacity
  isOpen : f'.isOpen = f.isOpen
  resolves : message.Resolves
  members : ∀ address, address ∈ f'.members ↔
    if address = message.address then message.isRemoval = false else address ∈ f.members

/-- A removal that is refused changes nothing, or it is accepted and recorded. -/
theorem remove_cases (f : Feed) (address : String) :
    f.accepts = false ∧ f.remove address = f ∨ f.Takes (.remove address) (f.remove address) := by
  unfold remove
  cases haccepts : f.accepts with
  | false => exact .inl ⟨rfl, rfl⟩
  | true =>
      refine .inr ⟨haccepts, rfl, rfl, rfl, trivial, fun other => ?_⟩
      simp only [if_true, mem_members, Table.contains_erase]
      by_cases h : other = address <;> simp [h, FeedMessage.address, FeedMessage.isRemoval]

/-- An insertion of what has no endpoint, or one that is refused, changes nothing; otherwise
it is accepted with its endpoint and recorded. -/
theorem insert_cases (f : Feed) (address : String) :
    (Endpoint.ofAddress? address = none ∨ f.accepts = false) ∧ f.insert address = f ∨
      ∃ endpoint, f.Takes (.insert address endpoint) (f.insert address) := by
  unfold insert
  cases hendpoint : Endpoint.ofAddress? address with
  | none => exact .inl ⟨.inl rfl, rfl⟩
  | some endpoint =>
      cases haccepts : f.accepts with
      | false => exact .inl ⟨.inr rfl, rfl⟩
      | true =>
          refine .inr ⟨endpoint, haccepts, rfl, rfl, rfl, hendpoint, fun other => ?_⟩
          simp only [if_true, mem_members, Table.contains_insert]
          by_cases h : other = address <;> simp [h, FeedMessage.address, FeedMessage.isRemoval]

/-- The receiver can apply the message to what the feed recorded. -/
theorem Takes.receive? (h : f.Takes message f')
    (hfresh : message.address ∈ f.members ↔ message.isRemoval = true) :
    message.receive? f.members = some f'.members := by
  have hmembers := h.members
  cases message with
  | insert address endpoint =>
      have hnot : address ∉ f.members := fun hmem => Bool.noConfusion (hfresh.mp hmem)
      rw [FeedMessage.receive?, if_neg hnot]
      congr 1
      ext other
      rw [hmembers, Finset.mem_union, Finset.mem_singleton]
      by_cases hother : other = address <;> simp [hother, FeedMessage.address, FeedMessage.isRemoval]
  | remove address =>
      have hheld : address ∈ f.members := hfresh.mpr rfl
      rw [FeedMessage.receive?, if_pos hheld]
      congr 1
      ext other
      rw [hmembers, Finset.mem_erase]
      by_cases hother : other = address <;> simp [hother, FeedMessage.address, FeedMessage.isRemoval]

/-- The message names one of the addresses that the record and the wanted set do not
share, and they share it afterwards. -/
theorem Takes.distance (h : f.Takes message f')
    (hfresh : message.address ∈ f.members ↔ message.isRemoval = true)
    (htoward : message.address ∈ valid addresses ↔ message.isRemoval = false) :
    f'.distance addresses + 1 = f.distance addresses := by
  have hmem : message.address ∈ f.members ∆ valid addresses := by
    rw [Finset.mem_symmDiff, hfresh, htoward]
    cases message.isRemoval <;> simp
  have herase : f'.members ∆ valid addresses =
      (f.members ∆ valid addresses).erase message.address := by
    ext other
    rw [Finset.mem_erase, Finset.mem_symmDiff, Finset.mem_symmDiff, h.members]
    by_cases hother : other = message.address
    · simp [hother, htoward]
    · simp [hother]
  rw [Feed.distance, herase, Finset.card_erase_add_one hmem, Feed.distance]

theorem Takes.room (h : f.Takes message f') : f'.room + 1 = f.room := by
  have hroom := (accepts_iff.mp h.accepts).2
  unfold Feed.room at hroom ⊢
  rw [h.queue, h.capacity, List.length_append, List.length_singleton]
  omega

def Known (f : Feed) : Prop :=
  ∀ address ∈ f.members, (Endpoint.ofAddress? address).isSome = true

/-- What is recorded and not wanted is gone, whether the wanted addresses are valid or
not. -/
theorem Known.sdiff_valid (h : f.Known) (addresses : List String) :
    f.members \ valid addresses = f.members \ addresses.toFinset := by
  ext address
  rw [Finset.mem_sdiff, Finset.mem_sdiff, mem_valid, List.mem_toFinset]
  constructor
  · rintro ⟨hmem, hnot⟩
    exact ⟨hmem, fun hwanted => hnot ⟨hwanted, h address hmem⟩⟩
  · rintro ⟨hmem, hnot⟩
    exact ⟨hmem, fun hwanted => hnot hwanted.1⟩

/-- The messages that are needed: one for each address that is recorded and no longer
wanted, and one for each valid one that is wanted and not yet recorded. -/
theorem distance_eq (f : Feed) (addresses : List String) : f.distance addresses =
    (f.members \ valid addresses).card + (valid addresses \ f.members).card := by
  rw [distance, symmDiff_def, Finset.sup_eq_union,
    Finset.card_union_of_disjoint disjoint_sdiff_sdiff]

/-- None is needed exactly if the record is the set of the valid addresses. -/
theorem distance_eq_zero : f.distance addresses = 0 ↔ f.members = valid addresses := by
  rw [distance, Finset.card_eq_zero]
  exact symmDiff_eq_bot

/-- What is recorded has an endpoint, since an address without one is never inserted. -/
theorem Takes.known (h : f.Takes message f') (hknown : f.Known) : f'.Known := by
  intro address hmem
  rw [h.members] at hmem
  split at hmem
  · rename_i heq
    subst heq
    have hresolves := h.resolves
    cases message with
    | insert address endpoint => exact Option.isSome_iff_exists.mpr ⟨endpoint, hresolves⟩
    | remove _ => cases hmem
  · exact hknown address hmem

theorem mem_members_remove_of_ne {other : String} (h : other ≠ address) :
    other ∈ (f.remove address).members ↔ other ∈ f.members := by
  rcases f.remove_cases address with ⟨_, hsame⟩ | htakes
  · rw [hsame]
  · rw [htakes.members]
    exact iff_of_eq (if_neg h)

theorem mem_members_insert_of_ne {other : String} (h : other ≠ address) :
    other ∈ (f.insert address).members ↔ other ∈ f.members := by
  rcases f.insert_cases address with ⟨_, hsame⟩ | ⟨_, htakes⟩
  · rw [hsame]
  · rw [htakes.members]
    exact iff_of_eq (if_neg h)

end Feed

namespace Feeding

/-- How far an update has come: what it still goes through. -/
inductive Task where
  | idle
  | removing (addresses gone : List String)
  | inserting (addresses new : List String)
deriving DecidableEq

structure World where
  feed : Feed
  task : Task
  /-- Every message that the queue has accepted. -/
  accepted : List FeedMessage

inductive Move where
  /-- An update goes through what is gone, in some order. -/
  | begin (addresses gone : List String)
  /-- It goes on with what is new, in some order. -/
  | turn (new : List String)
  | proceed
  /-- An update, before it has its turn, forgets the last error. -/
  | clear
  | report (e : Error)
  | drain (max : Nat)
  /-- The receiver takes nothing new, and may read what is there. -/
  | refuse
  | close

def Lists (order : List String) (addresses : Finset String) : Prop :=
  order.Nodup ∧ order.toFinset = addresses

instance (order : List String) (addresses : Finset String) : Decidable (Lists order addresses) :=
  inferInstanceAs (Decidable (_ ∧ _))

def World.create (capacity : Nat) : World := ⟨Feed.create capacity, .idle, []⟩

/-- The queue of the feed shows what it has accepted. -/
def World.tell (w : World) (feed : Feed) (task : Task) : World :=
  ⟨feed, task, w.accepted ++ feed.queue.drop w.feed.queue.length⟩

def proceed (w : World) : World :=
  match w.task with
  | .idle | .removing _ [] => w
  | .removing addresses (address :: gone) =>
      w.tell (w.feed.remove address) (.removing addresses gone)
  | .inserting addresses (address :: new) =>
      w.tell (w.feed.insert address) (.inserting addresses new)
  | .inserting _ [] => { w with task := .idle }

def turn (w : World) (new : List String) : World :=
  match w.task with
  | .removing addresses [] =>
      if Lists new (addresses.toFinset \ w.feed.members) then
        { w with task := .inserting addresses new }
      else w
  | _ => w

def step (w : World) : Move → World
  | .begin addresses gone =>
      if w.task = .idle ∧ Lists gone (w.feed.members \ addresses.toFinset) then
        { w with task := .removing addresses gone }
      else w
  | .turn new => turn w new
  | .proceed => proceed w
  | .clear => { w with feed := { w.feed with lastError := none } }
  | .report e => { w with feed := w.feed.report e }
  | .drain max => { w with feed := (w.feed.drain max).2 }
  | .refuse => { w with feed := { w.feed with isOpen := false } }
  | .close => { w with feed := w.feed.close }

def run (w : World) (moves : List Move) : World := moves.foldl step w

/-- The receiver does nothing. -/
def Move.isQuiet : Move → Bool
  | .turn _ | .proceed | .clear | .report _ => true
  | .begin _ _ | .drain _ | .refuse | .close => false

def Move.IsFor (addresses : List String) : Move → Prop
  | .begin wanted _ => wanted = addresses
  | _ => True

theorem Move.isFor_of_isQuiet {move : Move} (h : move.isQuiet = true) (addresses : List String) :
    move.IsFor addresses := by
  cases move <;> trivial

def Task.IsFor (addresses : List String) : Task → Prop
  | .idle => True
  | .removing wanted _ | .inserting wanted _ => wanted = addresses

def Task.isRemoving : Task → Bool
  | .removing _ _ => true
  | .idle | .inserting _ _ => false

/-- What an update goes through changes what is recorded. -/
def Task.Fits (held : Finset String) : Task → Prop
  | .idle => True
  | .removing addresses gone => gone.Nodup ∧ ∀ address ∈ gone, address ∈ held ∧ address ∉ addresses
  | .inserting addresses new => new.Nodup ∧ ∀ address ∈ new, address ∈ addresses ∧ address ∉ held

/-- The messages that the update has yet to send. -/
def World.ahead (w : World) : Nat :=
  match w.task with
  | .idle => 0
  | .removing addresses gone => gone.length + (Feed.valid addresses \ w.feed.members).card
  | .inserting _ new => new.countP (fun address => (Endpoint.ofAddress? address).isSome)

/-- Those of them that the queue has room for. -/
def World.due (w : World) : Nat := min w.feed.room w.ahead

/-- A step sends nothing, or the one message that its update is at. -/
inductive Sends (w : World) (move : Move) (w' : World) : Prop where
  | nothing (accepted : w'.accepted = w.accepted) (members : w'.feed.members = w.feed.members)
      (quiet : move.isQuiet = true → w'.feed.isOpen = w.feed.isOpen ∧
        (w.feed.isOpen = true → w'.due = w.due))
  | one (message : FeedMessage) (takes : w.feed.Takes message w'.feed)
      (accepted : w'.accepted = w.accepted ++ [message])
      (fresh : message.address ∈ w.feed.members ↔ message.isRemoval = true)
      (toward : ∀ addresses, w.task.IsFor addresses →
        (message.address ∈ Feed.valid addresses ↔ message.isRemoval = false))
      (phase : message.isRemoval = w.task.isRemoving) (due : w'.due + 1 = w.due)

section Steps

variable {w w' : World} {addresses : List String} {address : String} {rest : List String}

theorem World.accepted_tell {feed : Feed} {task : Task} {message : FeedMessage}
    (h : w.feed.Takes message feed) : (w.tell feed task).accepted = w.accepted ++ [message] := by
  simp [tell, h.queue]

theorem World.tell_self (w : World) (task : Task) : w.tell w.feed task = { w with task } := by
  simp [tell]

/-- With no room nothing is due, and with room a message leaves less of both. -/
theorem World.due_of_not_accepts {task : Task} (hopen : w.feed.isOpen = true)
    (h : w.feed.accepts = false) : ({ w with task } : World).due = w.due := by
  have hroom : ¬ 0 < w.feed.room := fun hroom =>
    Bool.false_ne_true (h.symm.trans (Feed.accepts_iff.mpr ⟨hopen, hroom⟩))
  unfold due
  show min w.feed.room _ = _
  omega

theorem World.due_of_takes {message : FeedMessage} (h : w.feed.Takes message w'.feed)
    (hahead : w'.ahead + 1 = w.ahead) : w'.due + 1 = w.due := by
  have hroom := h.room
  unfold due
  omega

theorem sends_remove (htask : w.task = .removing addresses (address :: rest))
    (hfits : w.task.Fits w.feed.members) : Sends w .proceed (proceed w) := by
  have hproceed : proceed w = w.tell (w.feed.remove address) (.removing addresses rest) := by
    simp only [proceed, htask]
  rw [htask] at hfits
  obtain ⟨hheld, hnot⟩ := hfits.2 address List.mem_cons_self
  rcases w.feed.remove_cases address with ⟨hfull, hsame⟩ | htakes
  · rw [hproceed, hsame, World.tell_self]
    exact .nothing rfl rfl (fun _ => ⟨rfl, fun hopen => World.due_of_not_accepts hopen hfull⟩)
  · rw [hproceed]
    refine .one (.remove address) htakes (World.accepted_tell htakes) ?_ ?_ (by rw [htask]; rfl)
      (World.due_of_takes htakes ?_)
    · exact ⟨fun _ => rfl, fun _ => hheld⟩
    · intro wanted hfor
      rw [htask] at hfor
      obtain rfl : addresses = wanted := hfor
      exact ⟨fun hvalid => absurd (Feed.mem_valid.mp hvalid).1 hnot, fun h => by cases h⟩
    · have hsdiff : Feed.valid addresses \ (w.feed.remove address).members =
          Feed.valid addresses \ w.feed.members := by
        ext other
        rw [Finset.mem_sdiff, Finset.mem_sdiff, htakes.members]
        by_cases hother : other = address
        · simp [hother, FeedMessage.address, Feed.mem_valid, hnot]
        · simp [hother, FeedMessage.address]
      simp only [World.ahead, htask, World.tell, hsdiff, List.length_cons]
      omega

theorem sends_insert (htask : w.task = .inserting addresses (address :: rest))
    (hfits : w.task.Fits w.feed.members) : Sends w .proceed (proceed w) := by
  have hproceed : proceed w = w.tell (w.feed.insert address) (.inserting addresses rest) := by
    simp only [proceed, htask]
  rw [htask] at hfits
  obtain ⟨hwanted, hnot⟩ := hfits.2 address List.mem_cons_self
  rcases w.feed.insert_cases address with ⟨hwhy, hsame⟩ | ⟨endpoint, htakes⟩
  · rw [hproceed, hsame, World.tell_self]
    refine .nothing rfl rfl (fun _ => ⟨rfl, fun hopen => ?_⟩)
    rcases hwhy with hnone | hfull
    · simp [World.due, World.ahead, htask, hnone]
    · exact World.due_of_not_accepts hopen hfull
  · rw [hproceed]
    have hendpoint : Endpoint.ofAddress? address = some endpoint := htakes.resolves
    refine .one (.insert address endpoint) htakes (World.accepted_tell htakes) ?_ ?_
      (by rw [htask]; rfl) (World.due_of_takes htakes ?_)
    · exact ⟨fun hmem => absurd hmem hnot, fun h => by cases h⟩
    · intro wanted hfor
      rw [htask] at hfor
      obtain rfl : addresses = wanted := hfor
      refine ⟨fun _ => rfl, fun _ => Feed.mem_valid.mpr ⟨hwanted, ?_⟩⟩
      exact Option.isSome_iff_exists.mpr ⟨endpoint, hendpoint⟩
    · simp [World.ahead, htask, World.tell, hendpoint]

theorem sends_turn (w : World) (new : List String) : Sends w (.turn new) (turn w new) := by
  unfold turn
  split
  · rename_i addresses htask
    split
    · rename_i hlists
      refine .nothing rfl rfl (fun _ => ⟨rfl, fun _ => ?_⟩)
      have hcount : new.countP (fun address => (Endpoint.ofAddress? address).isSome) =
          (Feed.valid addresses \ w.feed.members).card := by
        rw [List.countP_eq_length_filter,
          ← List.toFinset_card_of_nodup (hlists.1.filter _)]
        congr 1
        ext address
        rw [List.mem_toFinset, List.mem_filter, ← List.mem_toFinset, hlists.2, Finset.mem_sdiff,
          Finset.mem_sdiff, Feed.mem_valid, List.mem_toFinset]
        tauto
      simp only [World.due, World.ahead, htask, hcount, List.length_nil, Nat.zero_add]
    · exact .nothing rfl rfl (fun _ => ⟨rfl, fun _ => rfl⟩)
  · exact .nothing rfl rfl (fun _ => ⟨rfl, fun _ => rfl⟩)

/-- No move sends more than the one message that its update is at; the receiver sends none.
The rest of the module speaks of `Sends`. -/
theorem sends_step (move : Move) (hfits : w.task.Fits w.feed.members) :
    Sends w move (step w move) := by
  cases move with
  | begin addresses gone =>
      simp only [step]
      split
      · exact .nothing rfl rfl (fun h => by cases h)
      · exact .nothing rfl rfl (fun _ => ⟨rfl, fun _ => rfl⟩)
  | turn new => exact sends_turn w new
  | proceed =>
      cases htask : w.task with
      | idle =>
          have hproceed : proceed w = w := by simp only [proceed, htask]
          rw [step, hproceed]
          exact .nothing rfl rfl (fun _ => ⟨rfl, fun _ => rfl⟩)
      | removing addresses gone =>
          cases gone with
          | nil =>
              have hproceed : proceed w = w := by simp only [proceed, htask]
              rw [step, hproceed]
              exact .nothing rfl rfl (fun _ => ⟨rfl, fun _ => rfl⟩)
          | cons address rest => exact sends_remove htask hfits
      | inserting addresses new =>
          cases new with
          | nil =>
              have hproceed : proceed w = { w with task := .idle } := by simp only [proceed, htask]
              rw [step, hproceed]
              refine .nothing rfl rfl (fun _ => ⟨rfl, fun _ => ?_⟩)
              simp [World.due, World.ahead, htask]
          | cons address rest => exact sends_insert htask hfits
  | clear => exact .nothing rfl rfl (fun _ => ⟨rfl, fun _ => rfl⟩)
  | report e => exact .nothing rfl rfl (fun _ => ⟨rfl, fun _ => rfl⟩)
  | drain max => exact .nothing rfl rfl (fun h => by cases h)
  | refuse => exact .nothing rfl rfl (fun h => by cases h)
  | close => exact .nothing rfl rfl (fun h => by cases h)

theorem fits_proceed (hfits : w.task.Fits w.feed.members) :
    (proceed w).task.Fits (proceed w).feed.members := by
  unfold proceed
  split
  · exact hfits
  · exact hfits
  · rename_i addresses address gone htask
    rw [htask] at hfits
    obtain ⟨hnodup, hgone⟩ := hfits
    obtain ⟨hhead, hrest⟩ := List.nodup_cons.mp hnodup
    refine ⟨hrest, fun other hother => ?_⟩
    have hne : other ≠ address := fun h => hhead (h ▸ hother)
    obtain ⟨hheld, hnot⟩ := hgone other (List.mem_cons_of_mem _ hother)
    exact ⟨(Feed.mem_members_remove_of_ne hne).mpr hheld, hnot⟩
  · rename_i addresses address new htask
    rw [htask] at hfits
    obtain ⟨hnodup, hnew⟩ := hfits
    obtain ⟨hhead, hrest⟩ := List.nodup_cons.mp hnodup
    refine ⟨hrest, fun other hother => ?_⟩
    have hne : other ≠ address := fun h => hhead (h ▸ hother)
    obtain ⟨hwanted, hnot⟩ := hnew other (List.mem_cons_of_mem _ hother)
    exact ⟨hwanted, fun h => hnot ((Feed.mem_members_insert_of_ne hne).mp h)⟩
  · trivial

/-- What an update still goes through would change the record, until it is its turn:
addresses that are gone are recorded, and new ones are not. -/
theorem fits_step (move : Move) (hfits : w.task.Fits w.feed.members) :
    (step w move).task.Fits (step w move).feed.members := by
  cases move with
  | begin addresses gone =>
      simp only [step]
      split
      · rename_i h
        refine ⟨h.2.1, fun address hgone => ?_⟩
        rw [← List.mem_toFinset, h.2.2, Finset.mem_sdiff, List.mem_toFinset] at hgone
        exact hgone
      · exact hfits
  | turn new =>
      simp only [step, turn]
      split
      · split
        · rename_i h
          refine ⟨h.1, fun address hnew => ?_⟩
          rw [← List.mem_toFinset, h.2, Finset.mem_sdiff, List.mem_toFinset] at hnew
          exact hnew
        · exact hfits
      · exact hfits
  | proceed => exact fits_proceed hfits
  | clear => exact hfits
  | report e => exact hfits
  | drain max => exact hfits
  | refuse => exact hfits
  | close => exact hfits

/-- The receiver's view, made of all that was accepted, is the record; what it was told
are endpoints. -/
structure Faithful (w : World) : Prop where
  replayed : FeedMessage.replay? w.accepted = some w.feed.members
  resolves : ∀ message ∈ w.accepted, message.Resolves
  known : w.feed.Known

structure Inv (w : World) : Prop extends Faithful w where
  fits : w.task.Fits w.feed.members

theorem inv_create (capacity : Nat) : Inv (World.create capacity) where
  replayed := rfl
  resolves := fun _ h => by cases h
  known := fun _ h => by cases h
  fits := trivial

/-- Each accepted message is recorded as it is sent, so the view of the receiver stays the
record. -/
theorem Inv.step (h : Inv w) (move : Move) : Inv (step w move) := by
  have hfits := fits_step move h.fits
  cases sends_step move h.fits with
  | nothing accepted members _ =>
      refine ⟨⟨?_, ?_, ?_⟩, hfits⟩
      · rw [accepted, members]
        exact h.replayed
      · rw [accepted]
        exact h.resolves
      · unfold Feed.Known
        rw [members]
        exact h.known
  | one message takes accepted fresh _ _ _ =>
      refine ⟨⟨?_, ?_, takes.known h.known⟩, hfits⟩
      · rw [accepted, FeedMessage.replay?_append_one h.replayed]
        exact takes.receive? fresh
      · rw [accepted]
        intro other hother
        rcases List.mem_append.mp hother with hbefore | hlast
        · exact h.resolves other hbefore
        · rw [List.mem_singleton.mp hlast]
          exact takes.resolves

/-- So it does in any run, with updates one after the other, drains and a close in between. -/
theorem Inv.run (h : Inv w) (moves : List Move) : Inv (run w moves) := by
  induction moves generalizing w with
  | nil => exact h
  | cons move rest ih => exact ih (h.step move)

end Steps

end Feeding

end Rollcall
