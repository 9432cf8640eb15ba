import Rollcall.Proofs.Feed.Recording

/-!
Where the updates of a feed lead. Each accepted message brings the record one address
nearer to what its update wants, so the number of messages is the distance covered, and
an update that nothing disturbs sends as many as the queue has room for. One that had
too little room is made good by repeating it. Main statement: `record_matches_messages`.
-/

namespace Rollcall

namespace Feeding

section Steps

variable {w w' : World} {addresses : List String} {address : String} {rest : List String}

/-- What was accepted since leads towards the addresses, each message one step, and no
address is named twice. -/
structure Nearing (addresses : List String) (w : World) (since : List FeedMessage) (w' : World) :
    Prop where
  accepted : w'.accepted = w.accepted ++ since
  toward : ∀ message ∈ since,
    message.address ∈ Feed.valid addresses ↔ message.isRemoval = false
  settled : ∀ message ∈ since, message.address ∈ w'.feed.members ↔ message.isRemoval = false
  once : (since.map FeedMessage.address).Nodup
  count : since.length + w'.feed.distance addresses = w.feed.distance addresses

namespace Nearing

variable {since since' : List FeedMessage} {w'' : World}

theorem refl (addresses : List String) (w : World) : Nearing addresses w [] w where
  accepted := (List.append_nil _).symm
  toward := fun _ h => by cases h
  settled := fun _ h => by cases h
  once := List.nodup_nil
  count := Nat.zero_add _

/-- A move that sends nothing and records nothing leaves everything as far as it was. -/
theorem nothing (h : Nearing addresses w since w') (accepted : w''.accepted = w'.accepted)
    (members : w''.feed.members = w'.feed.members) : Nearing addresses w since w'' where
  accepted := accepted.trans h.accepted
  toward := h.toward
  settled := fun message hmem => by rw [members]; exact h.settled message hmem
  once := h.once
  count := by
    rw [Feed.distance, members]
    exact h.count

/-- An address that was named stands where the wanted set has it, so the next message
names another one. -/
theorem one (h : Nearing addresses w since w') {message : FeedMessage}
    (takes : w'.feed.Takes message w''.feed) (accepted : w''.accepted = w'.accepted ++ [message])
    (fresh : message.address ∈ w'.feed.members ↔ message.isRemoval = true)
    (toward : message.address ∈ Feed.valid addresses ↔ message.isRemoval = false) :
    Nearing addresses w (since ++ [message]) w'' := by
  have hother : ∀ earlier ∈ since, earlier.address ≠ message.address := by
    intro earlier hmem heq
    have hsettled := h.settled earlier hmem
    rw [← h.toward earlier hmem, heq, fresh, toward] at hsettled
    cases hremoval : message.isRemoval <;> simp [hremoval] at hsettled
  refine ⟨?_, ?_, ?_, ?_, ?_⟩
  · rw [accepted, h.accepted, List.append_assoc]
  · intro m hm
    rcases List.mem_append.mp hm with hbefore | hlast
    · exact h.toward m hbefore
    · rw [List.mem_singleton.mp hlast]
      exact toward
  · intro m hm
    rw [takes.members]
    rcases List.mem_append.mp hm with hbefore | hlast
    · rw [if_neg (hother m hbefore)]
      exact h.settled m hbefore
    · rw [List.mem_singleton.mp hlast, if_pos rfl]
  · rw [List.map_append, List.map_singleton, List.nodup_append]
    refine ⟨h.once, List.nodup_singleton _, fun a ha b hb => ?_⟩
    obtain ⟨earlier, hmem, rfl⟩ := List.mem_map.mp ha
    rw [List.mem_singleton.mp hb]
    exact hother earlier hmem
  · have hdistance := takes.distance fresh toward
    have hcount := h.count
    rw [List.length_append, List.length_singleton]
    omega

end Nearing

theorem isFor_step {move : Move} (h : w.task.IsFor addresses) (hmove : move.IsFor addresses) :
    (step w move).task.IsFor addresses := by
  cases move with
  | begin wanted gone =>
      simp only [step]
      split
      · exact hmove
      · exact h
  | turn new =>
      simp only [step, turn]
      split
      · rename_i wanted htask
        rw [htask] at h
        split
        · exact h
        · rw [htask]
          exact h
      · exact h
  | proceed =>
      simp only [step, proceed]
      split <;> rename_i htask <;> rw [htask] at h
      · rw [htask]
        exact h
      · rw [htask]
        exact h
      · exact h
      · exact h
      · trivial
  | clear => exact h
  | report e => exact h
  | drain max => exact h
  | refuse => exact h
  | close => exact h

/-- A move that belongs to an update for these addresses brings the record nearer by the
messages that it sends. -/
theorem Nearing.step {since : List FeedMessage} {move : Move} (h : Nearing addresses w since w')
    (hinv : Inv w') (hfor : w'.task.IsFor addresses) :
    ∃ more, Nearing addresses w (since ++ more) (step w' move) := by
  cases sends_step move hinv.fits with
  | nothing accepted members _ =>
      refine ⟨[], ?_⟩
      rw [List.append_nil]
      exact h.nothing accepted members
  | one message takes accepted fresh toward _ _ =>
      exact ⟨[message], h.one takes accepted fresh (toward addresses hfor)⟩

theorem Nearing.run {since : List FeedMessage} {moves : List Move}
    (h : Nearing addresses w since w') (hinv : Inv w') (hfor : w'.task.IsFor addresses)
    (hmoves : ∀ move ∈ moves, move.IsFor addresses) :
    ∃ more, Nearing addresses w (since ++ more) (run w' moves) := by
  induction moves generalizing since w' with
  | nil => exact ⟨[], (List.append_nil since).symm ▸ h⟩
  | cons move rest ih =>
      obtain ⟨first, hfirst⟩ : ∃ first, Nearing addresses w (since ++ first)
          (Feeding.step w' move) :=
        h.step hinv hfor
      obtain ⟨more, hmore⟩ := ih hfirst (hinv.step move)
        (isFor_step hfor (hmoves move List.mem_cons_self))
        (fun other hother => hmoves other (List.mem_cons_of_mem _ hother))
      exact ⟨first ++ more, List.append_assoc since first more ▸ hmore⟩

theorem isRemoving_step {move : Move} (hquiet : move.isQuiet = true)
    (h : (step w move).task.isRemoving = true) : w.task.isRemoving = true := by
  cases move with
  | begin wanted gone => cases hquiet
  | turn new =>
      simp only [step, turn] at h
      split at h
      · rename_i htask
        rw [htask]
        rfl
      · exact h
  | proceed =>
      simp only [step, proceed] at h
      split at h
      · exact h
      · exact h
      · rename_i htask
        rw [htask]
        rfl
      · cases h
      · cases h
  | clear => exact h
  | report e => exact h
  | drain max => cases hquiet
  | refuse => cases hquiet
  | close => cases hquiet

/-- An update with an open receiver that does nothing: what it has sent and what is due
make up what there was to send and room for. -/
structure Course (addresses : List String) (w : World) (since : List FeedMessage) (w' : World) :
    Prop extends Nearing addresses w since w' where
  isOpen : w'.feed.isOpen = true
  due : since.length + w'.due = min w.feed.room (w.feed.distance addresses)
  ordered : since.Pairwise (fun earlier later =>
    later.isRemoval = true → earlier.isRemoval = true)
  removing : w'.task.isRemoving = true → ∀ message ∈ since, message.isRemoval = true

/-- At the start of an update everything is still due that it needs and the queue has room
for. -/
theorem Course.begin {gone : List String} (hknown : w.feed.Known) (hopen : w.feed.isOpen = true)
    (hlists : Lists gone (w.feed.members \ addresses.toFinset)) :
    Course addresses w [] { w with task := .removing addresses gone } where
  toNearing := (Nearing.refl addresses w).nothing rfl rfl
  isOpen := hopen
  due := by
    have hgone : gone.length = (w.feed.members \ Feed.valid addresses).card := by
      rw [hknown.sdiff_valid, ← hlists.2, List.toFinset_card_of_nodup hlists.1]
    rw [Feed.distance_eq, ← hgone]
    exact Nat.zero_add _
  ordered := .nil
  removing := fun _ _ h => by cases h

/-- A step sends what it is at, if there is room, and one less is due. -/
theorem Course.step {since : List FeedMessage} {move : Move} (h : Course addresses w since w')
    (hinv : Inv w') (hfor : w'.task.IsFor addresses) (hquiet : move.isQuiet = true) :
    ∃ more, Course addresses w (since ++ more) (step w' move) := by
  cases sends_step move hinv.fits with
  | nothing accepted members quiet =>
      obtain ⟨hopen, hdue⟩ := quiet hquiet
      refine ⟨[], ?_⟩
      rw [List.append_nil]
      refine ⟨h.toNearing.nothing accepted members, hopen.trans h.isOpen, ?_, h.ordered,
        fun hremoving => h.removing (isRemoving_step hquiet hremoving)⟩
      rw [hdue h.isOpen]
      exact h.due
  | one message takes accepted fresh toward phase due =>
      refine ⟨[message], h.toNearing.one takes accepted fresh (toward addresses hfor),
        takes.isOpen.trans h.isOpen, ?_, ?_, fun hremoving other hother => ?_⟩
      · have hbefore := h.due
        rw [List.length_append, List.length_singleton]
        omega
      · refine List.pairwise_append.mpr ⟨h.ordered, List.pairwise_singleton _ _, ?_⟩
        intro earlier hearlier later hlater hremoval
        rw [List.mem_singleton.mp hlater, phase] at hremoval
        exact h.removing hremoval earlier hearlier
      · have hbefore := isRemoving_step hquiet hremoving
        rcases List.mem_append.mp hother with hmem | hlast
        · exact h.removing hbefore other hmem
        · rw [List.mem_singleton.mp hlast, phase]
          exact hbefore

theorem Course.run {since : List FeedMessage} {moves : List Move}
    (h : Course addresses w since w') (hinv : Inv w') (hfor : w'.task.IsFor addresses)
    (hquiet : ∀ move ∈ moves, move.isQuiet = true) :
    ∃ more, Course addresses w (since ++ more) (run w' moves) := by
  induction moves generalizing since w' with
  | nil => exact ⟨[], (List.append_nil since).symm ▸ h⟩
  | cons move rest ih =>
      have hmove := hquiet move List.mem_cons_self
      obtain ⟨first, hfirst⟩ := h.step hinv hfor hmove
      obtain ⟨more, hmore⟩ := ih hfirst (hinv.step move)
        (isFor_step hfor (Move.isFor_of_isQuiet hmove addresses))
        (fun other hother => hquiet other (List.mem_cons_of_mem _ hother))
      exact ⟨first ++ more, List.append_assoc since first more ▸ hmore⟩

/-- One whole update, in some order of its addresses, while the receiver does nothing. -/
def Updates (addresses : List String) (w w' : World) : Prop :=
  w.task = .idle ∧ w'.task = .idle ∧ ∃ gone quiet,
    Lists gone (w.feed.members \ addresses.toFinset) ∧ (∀ move ∈ quiet, move.isQuiet = true) ∧
    w' = run w (.begin addresses gone :: quiet)

/-- A whole update is such a course, whatever the order of its addresses. -/
theorem Updates.course (h : Updates addresses w w') (hinv : Inv w)
    (hopen : w.feed.isOpen = true) : Inv w' ∧ ∃ since, Course addresses w since w' := by
  obtain ⟨hidle, _, gone, quiet, hlists, hquiet, rfl⟩ := h
  have hbegin : step w (.begin addresses gone) = { w with task := .removing addresses gone } :=
    if_pos ⟨hidle, hlists⟩
  have hinv' := hinv.step (.begin addresses gone)
  refine ⟨hinv'.run quiet, ?_⟩
  rw [hbegin] at hinv'
  obtain ⟨since, hsince⟩ := (Course.begin hinv.known hopen hlists).run hinv' rfl hquiet
  rw [run, List.foldl_cons, hbegin]
  exact ⟨since, hsince⟩

/-- At its end it has sent all that was needed, or as many messages as the queue had room
for. -/
theorem Course.length_eq {since : List FeedMessage} (h : Course addresses w since w')
    (hidle : w'.task = .idle) :
    since.length = min w.feed.room (w.feed.distance addresses) := by
  have hdue := h.due
  have hzero : w'.due = 0 := by
    unfold World.due World.ahead
    rw [hidle]
    exact Nat.min_zero _
  omega

/-- Where there was room for all of them, the record is the set of the valid addresses. -/
theorem Course.members_eq {since : List FeedMessage} (h : Course addresses w since w')
    (hidle : w'.task = .idle) (hroom : w.feed.distance addresses ≤ w.feed.room) :
    w'.feed.members = Feed.valid addresses := by
  have hlength := h.length_eq hidle
  have hcount := h.count
  exact Feed.distance_eq_zero.mp (by omega)

/-- `n` updates that want the same addresses, each begun where the receiver has left room;
it reads in between. -/
inductive Retries (addresses : List String) (w : World) : Nat → World → Prop where
  | none : Retries addresses w 0 w
  | read {n : Nat} {w' : World} (max : Nat) (before : Retries addresses w n w') :
      Retries addresses w n (step w' (.drain max))
  | again {n : Nat} {w' w'' : World} (before : Retries addresses w n w')
      (room : 0 < w'.feed.room) (update : Updates addresses w' w'') :
      Retries addresses w (n + 1) w''

/-- Each retry tells of one address at least, until none is left. -/
theorem Retries.nearing {n : Nat} (h : Retries addresses w n w') (hinv : Inv w)
    (hidle : w.task = .idle) (hopen : w.feed.isOpen = true) :
    Inv w' ∧ w'.task = .idle ∧ w'.feed.isOpen = true ∧
      (∃ since, Nearing addresses w since w') ∧
      w'.feed.distance addresses ≤ w.feed.distance addresses - n := by
  induction h with
  | none => exact ⟨hinv, hidle, hopen, ⟨[], Nearing.refl addresses w⟩, Nat.le_refl _⟩
  | read max _ ih =>
      obtain ⟨hinv', hidle', hopen', ⟨since, hsince⟩, hle⟩ := ih
      exact ⟨hinv'.step _, hidle', hopen', ⟨since, hsince.nothing rfl rfl⟩, hle⟩
  | again _ room update ih =>
      obtain ⟨hinv', hidle', hopen', ⟨since, hsince⟩, hle⟩ := ih
      obtain ⟨hinv'', told, hcourse⟩ := update.course hinv' hopen'
      have hlength := hcourse.length_eq update.2.1
      have hcount := hcourse.count
      obtain ⟨_, hidle'', gone, quiet, _, hquiet, rfl⟩ := update
      have hmoves : ∀ move ∈ Move.begin addresses gone :: quiet, move.IsFor addresses := by
        intro move hmove
        rcases List.mem_cons.mp hmove with rfl | hrest
        · rfl
        · exact Move.isFor_of_isQuiet (hquiet move hrest) addresses
      obtain ⟨more, hmore⟩ := hsince.run hinv' (hidle' ▸ trivial) hmoves
      exact ⟨hinv'', hidle'', hcourse.isOpen, ⟨since ++ more, hmore⟩, by omega⟩

theorem proceed_of_closed (h : w.feed.isOpen = false) :
    (proceed w).feed = w.feed ∧ (proceed w).accepted = w.accepted := by
  have hfull : w.feed.accepts = false := by rw [Feed.accepts, h, Bool.false_and]
  unfold proceed
  split
  · exact ⟨rfl, rfl⟩
  · exact ⟨rfl, rfl⟩
  · rename_i address _ _
    rcases w.feed.remove_cases address with ⟨_, hsame⟩ | htakes
    · rw [hsame, World.tell_self]
      exact ⟨rfl, rfl⟩
    · exact absurd htakes.accepts (hfull ▸ Bool.false_ne_true)
  · rename_i address _ _
    rcases w.feed.insert_cases address with ⟨_, hsame⟩ | ⟨_, htakes⟩
    · rw [hsame, World.tell_self]
      exact ⟨rfl, rfl⟩
    · exact absurd htakes.accepts (hfull ▸ Bool.false_ne_true)
  · exact ⟨rfl, rfl⟩

theorem feed_turn (w : World) (new : List String) :
    (turn w new).feed = w.feed ∧ (turn w new).accepted = w.accepted := by
  unfold turn
  split
  · split <;> exact ⟨rfl, rfl⟩
  · exact ⟨rfl, rfl⟩

/-- Once the receiver is gone nothing is accepted or recorded, and it does not come back. -/
theorem closed_step (h : w.feed.isOpen = false) (move : Move) :
    (step w move).feed.isOpen = false ∧ (step w move).feed.current = w.feed.current ∧
      (step w move).accepted = w.accepted := by
  cases move with
  | begin wanted gone =>
      simp only [step]
      split <;> exact ⟨h, rfl, rfl⟩
  | turn new =>
      obtain ⟨hfeed, haccepted⟩ := feed_turn w new
      rw [step, hfeed]
      exact ⟨h, rfl, haccepted⟩
  | proceed =>
      obtain ⟨hfeed, haccepted⟩ := proceed_of_closed h
      rw [step, hfeed]
      exact ⟨h, rfl, haccepted⟩
  | clear => exact ⟨h, rfl, rfl⟩
  | report e => exact ⟨h, rfl, rfl⟩
  | drain max => exact ⟨h, rfl, rfl⟩
  | refuse => exact ⟨rfl, rfl, rfl⟩
  | close => exact ⟨rfl, rfl, rfl⟩

theorem closed_run (h : w.feed.isOpen = false) (moves : List Move) :
    (run w moves).feed.current = w.feed.current ∧ (run w moves).accepted = w.accepted := by
  induction moves generalizing w with
  | nil => exact ⟨rfl, rfl⟩
  | cons move rest ih =>
      obtain ⟨hclosed, hcurrent, haccepted⟩ := closed_step h move
      obtain ⟨hcurrent', haccepted'⟩ := ih hclosed
      exact ⟨hcurrent'.trans hcurrent, haccepted'.trans haccepted⟩

/-- Without a word from the receiver an update goes through all that is gone. -/
theorem run_removing {gone : List String} (htask : w.task = .removing addresses gone) :
    (run w (List.replicate gone.length .proceed)).task = .removing addresses [] ∧
      (run w (List.replicate gone.length .proceed)).feed = gone.foldl Feed.remove w.feed := by
  induction gone generalizing w with
  | nil => exact ⟨htask, rfl⟩
  | cons address rest ih =>
      have hstep : step w .proceed = w.tell (w.feed.remove address) (.removing addresses rest) := by
        simp only [step, proceed, htask]
      rw [List.length_cons, List.replicate_succ, run, List.foldl_cons, hstep]
      exact ih rfl

/-- The second half of an update inserts the new addresses one after the other. -/
theorem run_inserting {new : List String} (htask : w.task = .inserting addresses new) :
    (run w (List.replicate (new.length + 1) .proceed)).task = .idle ∧
      (run w (List.replicate (new.length + 1) .proceed)).feed = new.foldl Feed.insert w.feed := by
  induction new generalizing w with
  | nil =>
      have hstep : step w .proceed = { w with task := .idle } := by
        simp only [step, proceed, htask]
      rw [List.length_nil, List.replicate_succ, run, List.foldl_cons, hstep]
      exact ⟨rfl, rfl⟩
  | cons address rest ih =>
      have hstep : step w .proceed = w.tell (w.feed.insert address) (.inserting addresses rest) := by
        simp only [step, proceed, htask]
      rw [List.length_cons, List.replicate_succ, run, List.foldl_cons, hstep]
      exact ih rfl

theorem contains_addressSet (addresses : List String) (address : String) :
    (Feed.addressSet addresses).contains address = decide (address ∈ addresses) := by
  have hfold : ∀ t : Table String Unit,
      (addresses.foldl (fun t a => t.insert a ()) t).contains address =
        (decide (address ∈ addresses) || t.contains address) := by
    induction addresses with
    | nil => simp
    | cons first rest ih =>
        intro t
        rw [List.foldl_cons, ih, Table.contains_insert]
        by_cases h : address = first <;> simp [h]
  rw [Feed.addressSet, Table.ofList, List.foldl_map, hfold]
  exact Bool.or_false _

/-- The keys of one table that another does not have, in ascending order. -/
theorem lists_missing (t s : Table String Unit) :
    Lists (t.keys.filter (fun address => !s.contains address))
      (t.keys.toFinset \ s.keys.toFinset) := by
  refine ⟨t.nodup_keys.filter _, ?_⟩
  ext address
  rw [List.mem_toFinset, List.mem_filter, Finset.mem_sdiff, List.mem_toFinset, List.mem_toFinset,
    Table.mem_keys, Table.mem_keys, Bool.not_eq_true', ← Bool.not_eq_true]

theorem keys_addressSet (addresses : List String) :
    (Feed.addressSet addresses).keys.toFinset = addresses.toFinset := by
  ext address
  rw [List.mem_toFinset, List.mem_toFinset, Table.mem_keys, contains_addressSet, decide_eq_true_iff]

/-- The update that goes through both sets in ascending order is one of those that the main
result is about. This ties it to the function that is run. -/
theorem updates_update (hidle : w.task = .idle) (addresses : List String) :
    ∃ w', Updates addresses (step w .clear) w' ∧ w'.feed = w.feed.update addresses := by
  let w₀ := step w .clear
  let wanted := Feed.addressSet addresses
  let gone := w₀.feed.current.keys.filter (fun address => !wanted.contains address)
  let w₁ := run { w₀ with task := .removing addresses gone } (List.replicate gone.length .proceed)
  let new := wanted.keys.filter (fun address => !w₁.feed.current.contains address)
  let quiet := List.replicate gone.length Move.proceed ++
    .turn new :: List.replicate (new.length + 1) .proceed
  have hgone : Lists gone (w₀.feed.members \ addresses.toFinset) := by
    rw [← keys_addressSet]
    exact lists_missing _ _
  have hnew : Lists new (addresses.toFinset \ w₁.feed.members) := by
    rw [← keys_addressSet]
    exact lists_missing _ _
  have htask₀ : ({ w₀ with task := .removing addresses gone } : World).task =
      .removing addresses gone := rfl
  obtain ⟨htask₁, hfeed₁⟩ := run_removing htask₀
  have hbegin : step w₀ (.begin addresses gone) = { w₀ with task := .removing addresses gone } :=
    if_pos ⟨hidle, hgone⟩
  have hturn : step w₁ (.turn new) = { w₁ with task := .inserting addresses new } := by
    have htask : w₁.task = .removing addresses [] := htask₁
    simp only [step, turn, htask]
    exact if_pos hnew
  have hinserting : ({ w₁ with task := .inserting addresses new } : World).task =
      .inserting addresses new := rfl
  obtain ⟨htask₂, hfeed₂⟩ := run_inserting hinserting
  have hrun : run w₀ (.begin addresses gone :: quiet) =
      run { w₁ with task := .inserting addresses new }
        (List.replicate (new.length + 1) .proceed) := by
    rw [run, List.foldl_cons, hbegin, List.foldl_append, List.foldl_cons]
    exact congrArg (fun w' => run w' (List.replicate (new.length + 1) .proceed)) hturn
  refine ⟨_, ⟨hidle, hrun ▸ htask₂, gone, quiet, hgone, fun move hmove => ?_, rfl⟩, ?_⟩
  · rcases List.mem_append.mp hmove with hproceed | hrest
    · rw [List.eq_of_mem_replicate hproceed]
      rfl
    · rcases List.mem_cons.mp hrest with rfl | hproceed
      · rfl
      · rw [List.eq_of_mem_replicate hproceed]
        rfl
  · rw [hrun, hfeed₂]
    show new.foldl Feed.insert w₁.feed = w.feed.update addresses
    have hw₁ : w₁.feed = gone.foldl Feed.remove w₀.feed := hfeed₁
    simp only [new, hw₁]
    rfl

end Steps

variable {capacity : Nat} {moves : List Move} {w : World}

/-- A feed never drifts from what it has told. In every run the accepted messages, replayed,
give the record, and all that it holds are endpoints. An update that nothing disturbs, in
whatever order, sends what it has room for, the removals first; it brings the record to the
valid addresses where there is room for all, and `Feed.update` is such an update. Updates of
one list tell of no address twice whatever the receiver does, and repeated after reads they
arrive. A reported error, and any run after the receiver is gone, leave the record. -/
theorem record_matches_messages (hrun : run (.create capacity) moves = w) :
    Faithful w ∧
    (w.task = .idle → ∀ addresses,
      ∃ w', Updates addresses (step w .clear) w' ∧ w'.feed = w.feed.update addresses) ∧
    (w.feed.isOpen = true → ∀ addresses w', Updates addresses w w' →
      ∃ since, Nearing addresses w since w' ∧
        since.length = min w.feed.room (w.feed.distance addresses) ∧
        since.Pairwise (fun earlier later =>
          later.isRemoval = true → earlier.isRemoval = true) ∧
        (w.feed.distance addresses ≤ w.feed.room → w'.feed.members = Feed.valid addresses)) ∧
    (w.task = .idle → ∀ addresses later, (∀ move ∈ later, move.IsFor addresses) →
      ∃ since, Nearing addresses w since (run w later)) ∧
    (w.task = .idle → w.feed.isOpen = true → ∀ addresses n w', Retries addresses w n w' →
      (∃ since, Nearing addresses w since w') ∧
        (w.feed.distance addresses ≤ n → w'.feed.members = Feed.valid addresses)) ∧
    (∀ e, (step w (.report e)).feed.current = w.feed.current ∧
      (step w (.report e)).accepted = w.accepted) ∧
    (w.feed.isOpen = false → ∀ later, (run w later).feed.current = w.feed.current ∧
      (run w later).accepted = w.accepted) := by
  have hinv : Inv w := hrun ▸ (inv_create capacity).run moves
  refine ⟨hinv.toFaithful, fun hidle => updates_update hidle, ?_, ?_, ?_,
    fun _ => ⟨rfl, rfl⟩, fun hclosed => closed_run hclosed⟩
  · intro hopen addresses w' hupdates
    obtain ⟨_, since, hcourse⟩ := hupdates.course hinv hopen
    exact ⟨since, hcourse.toNearing, hcourse.length_eq hupdates.2.1, hcourse.ordered,
      hcourse.members_eq hupdates.2.1⟩
  · intro hidle addresses later hlater
    obtain ⟨since, hsince⟩ := (Nearing.refl addresses w).run hinv (hidle ▸ trivial) hlater
    exact ⟨since, hsince⟩
  · intro hidle hopen addresses n w' hretries
    obtain ⟨_, _, _, hnearing, hdistance⟩ := hretries.nearing hinv hidle hopen
    exact ⟨hnearing, fun hn => Feed.distance_eq_zero.mp (by omega)⟩

/-- Two addresses and something that is none, on a queue with room for one message. -/
def sampleAddresses : List String := ["10.0.0.1:7000", "not an address", "10.0.0.2:7000"]

def sampleMoves : List Move :=
  [.begin sampleAddresses [], .turn sampleAddresses.reverse, .proceed, .proceed, .proceed, .proceed]

def sampleRetry : List Move :=
  [.begin sampleAddresses [], .turn ["10.0.0.1:7000", "not an address"], .proceed, .proceed, .proceed]

/-- There is room for one of the two addresses. The other is told once the receiver has read
and the update is made again; the text without an endpoint never is. -/
theorem record_matches_messages_full :
    Faithful (run (.create 1) sampleMoves) ∧
      (run (.create 1) sampleMoves).accepted.map FeedMessage.address = ["10.0.0.2:7000"] ∧
      (run (step (run (.create 1) sampleMoves) (.drain 1)) sampleRetry).feed.members =
        {"10.0.0.1:7000", "10.0.0.2:7000"} := by
  have hretry : Retries sampleAddresses (run (.create 1) sampleMoves) 1
      (run (step (run (.create 1) sampleMoves) (.drain 1)) sampleRetry) := by
    refine .again (.read 1 .none) (by decide +kernel) ?_
    exact ⟨by decide +kernel, by decide +kernel, [], sampleRetry.tail, by decide +kernel,
      by decide +kernel, rfl⟩
  obtain ⟨hfaithful, _, _, _, harrives, _⟩ :=
    record_matches_messages (w := run (.create 1) sampleMoves) rfl
  refine ⟨hfaithful, by decide +kernel, ?_⟩
  obtain ⟨_, hmembers⟩ :=
    harrives (by decide +kernel) (by decide +kernel) sampleAddresses 1 _ hretry
  rw [hmembers (by decide +kernel)]
  decide +kernel

end Feeding

end Rollcall
