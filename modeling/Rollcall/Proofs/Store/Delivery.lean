import Rollcall.Proofs.Store.Update

/-!
Delivery to a channel over a run of updates. As long as its receiver is held and
nobody closes the channels, what has been taken from a channel, followed by what
still waits on it, grows by exactly the announced events that its scope wants.
Main statement: `sent_applyAll`.
-/

namespace Rollcall.Store

variable {s : Store} {id : Nat} {c : Channel}

/-- What an update does to the channels: it leaves them alone, offers them the one
event that it announces, or is one of those that are about a channel. -/
theorem channels_apply (s : Store) (u : Update) :
    (s.announced u = [] ∧ (s.apply u).channels = s.channels ∧ ∀ id, s.taken id u = []) ∨
    (∃ e, s.announced u = [e] ∧ (s.apply u).channels = s.channels.offer e ∧
      ∀ id, s.taken id u = []) ∨
    (∃ scope version, u = .watch scope version) ∨ (∃ other, u = .receive other) ∨
    (∃ other, u = .drain other) ∨ (∃ other, u = .dropWatch other) ∨ u = .closeAll := by
  cases u with
  | put key value deadline => exact .inr (.inl ⟨_, rfl, rfl, fun _ => rfl⟩)
  | remove key =>
      cases hentry : s.entries.get? key with
      | none =>
          refine .inl ⟨?_, ?_, fun _ => rfl⟩
          · simp only [announced, hentry]
          · simp only [apply, remove, hentry]
      | some e =>
          refine .inr (.inl
            ⟨.change ⟨.delete, ⟨key, e.value, s.revision + 1⟩⟩, ?_, ?_, fun _ => rfl⟩)
          · simp only [announced, hentry]
          · simp only [apply, remove, hentry]
            rfl
  | extend key deadline =>
      refine .inl ⟨rfl, ?_, fun _ => rfl⟩
      simp only [apply, extend]
      split <;> rfl
  | compact revision => exact .inl ⟨rfl, rfl, fun _ => rfl⟩
  | refreshAll => exact .inr (.inl ⟨_, rfl, rfl, fun _ => rfl⟩)
  | watch scope version => exact .inr (.inr (.inl ⟨scope, version, rfl⟩))
  | receive other => exact .inr (.inr (.inr (.inl ⟨other, rfl⟩)))
  | drain other => exact .inr (.inr (.inr (.inr (.inl ⟨other, rfl⟩))))
  | dropWatch other => exact .inr (.inr (.inr (.inr (.inr (.inl ⟨other, rfl⟩)))))
  | closeAll => exact .inr (.inr (.inr (.inr (.inr (.inr rfl)))))

/-- Whatever is done to a store, the ids of its channels stay in order and the next one
stays free. -/
theorem numbered_apply (h : s.channels.Numbered) (u : Update) : (s.apply u).channels.Numbered := by
  rcases channels_apply s u with ⟨_, hsame, _⟩ | ⟨e, _, hoffer, _⟩ | ⟨scope, version, rfl⟩ |
    ⟨other, rfl⟩ | ⟨other, rfl⟩ | ⟨other, rfl⟩ | rfl
  · rwa [hsame]
  · rw [hoffer]
    exact Channels.numbered_offer h e
  · exact Channels.numbered_add h scope _
  · rcases Channels.receive_eq s.channels other with hsame | ⟨rest, hset⟩
    · simpa only [apply, hsame] using h
    · simpa only [apply, hset] using Channels.numbered_setWaiting h other rest
  · rcases Channels.drain_eq s.channels other with hsame | ⟨rest, hset⟩
    · simpa only [apply, hsame] using h
    · simpa only [apply, hset] using Channels.numbered_setWaiting h other rest
  · exact Channels.numbered_drop h other
  · exact Channels.numbered_update h (fun _ => rfl)

theorem nextId_le_apply (s : Store) (u : Update) :
    s.channels.nextId ≤ (s.apply u).channels.nextId := by
  rcases channels_apply s u with ⟨_, hsame, _⟩ | ⟨e, _, hoffer, _⟩ | ⟨scope, version, rfl⟩ |
    ⟨other, rfl⟩ | ⟨other, rfl⟩ | ⟨other, rfl⟩ | rfl
  · exact Nat.le_of_eq (by rw [hsame])
  · exact Nat.le_of_eq (by rw [hoffer]; rfl)
  · exact Nat.le_succ _
  · rcases Channels.receive_eq s.channels other with hsame | ⟨rest, hset⟩
    · exact Nat.le_of_eq (by simp only [apply, hsame])
    · exact Nat.le_of_eq (by simp only [apply, hset]; rfl)
  · rcases Channels.drain_eq s.channels other with hsame | ⟨rest, hset⟩
    · exact Nat.le_of_eq (by simp only [apply, hsame])
    · exact Nat.le_of_eq (by simp only [apply, hset]; rfl)
  · exact Nat.le_refl _
  · exact Nat.le_refl _

theorem not_held_apply (hid : id < s.channels.nextId) (h : s.channels.find? id = none)
    (u : Update) : (s.apply u).channels.find? id = none := by
  have hset (other : Nat) (rest : List Event) :
      (s.channels.setWaiting other rest).find? id = none := by
    rw [Channels.find?_setWaiting, h, Option.map_none]
  rcases channels_apply s u with ⟨_, hsame, _⟩ | ⟨e, _, hoffer, _⟩ | ⟨scope, version, rfl⟩ |
    ⟨other, rfl⟩ | ⟨other, rfl⟩ | ⟨other, rfl⟩ | rfl
  · rwa [hsame]
  · rw [hoffer, Channels.find?_offer, h, Option.map_none]
  · exact (Channels.find?_add_of_lt hid _ _).trans h
  · rcases Channels.receive_eq s.channels other with hsame | ⟨rest, hrest⟩
    · simpa only [apply, hsame] using h
    · simpa only [apply, hrest] using hset other rest
  · rcases Channels.drain_eq s.channels other with hsame | ⟨rest, hrest⟩
    · simpa only [apply, hsame] using h
    · simpa only [apply, hrest] using hset other rest
  · by_cases hother : id = other
    · subst hother
      exact Channels.find?_drop_self _ _
    · exact (Channels.find?_drop_of_ne _ hother).trans h
  · have hclose := Channels.find?_update s.channels (fun c => { c with isOpen := false })
      (fun _ => rfl) id
    rw [h, Option.map_none] at hclose
    exact hclose

/-- The id of a receiver that is gone is not given again, so nothing is ever found under it. -/
theorem not_held_applyAll (hid : id < s.channels.nextId) (h : s.channels.find? id = none)
    (us : List Update) : (s.applyAll us).channels.find? id = none := by
  induction us generalizing s with
  | nil => exact h
  | cons u rest ih =>
      exact ih (Nat.lt_of_lt_of_le hid (nextId_le_apply s u)) (not_held_apply hid h u)

/-- What one update does to a channel: it is dropped, or it keeps its scope and has
been sent what was announced and is wanted. -/
theorem sent_apply (hc : s.channels.find? id = some c) (hid : id < s.channels.nextId)
    (hopen : c.isOpen = true) {u : Update} (hu : u ≠ .closeAll) :
    (u = .dropWatch id ∧ (s.apply u).channels.find? id = none) ∨
      ∃ c', (s.apply u).channels.find? id = some c' ∧ c'.scope = c.scope ∧ c'.isOpen = true ∧
        s.taken id u ++ c'.waiting = c.waiting ++ (s.announced u).filter c.scope.wants := by
  have hkept {t : Store} {events : List Event} (ht : t.channels.find? id = some c)
      (hevents : events = []) :
      ∃ c', t.channels.find? id = some c' ∧ c'.scope = c.scope ∧ c'.isOpen = true ∧
        events ++ c'.waiting = c.waiting ++ [].filter c.scope.wants :=
    ⟨c, ht, rfl, hopen, by simp [hevents]⟩
  rcases channels_apply s u with ⟨hquiet, hsame, htaken⟩ | ⟨e, hevent, hoffer, htaken⟩ |
    ⟨scope, version, rfl⟩ | ⟨other, rfl⟩ | ⟨other, rfl⟩ | ⟨other, rfl⟩ | rfl
  · rw [hquiet]
    exact .inr (hkept (by rw [hsame, hc]) (htaken id))
  · refine .inr ⟨c.offer e, ?_, Channel.offer_scope e c, ?_, ?_⟩
    · rw [hoffer, Channels.find?_offer, hc, Option.map_some]
    · rw [Channel.offer_isOpen, hopen]
    · rw [htaken, hevent, List.nil_append, Channel.offer_waiting hopen]
  · exact .inr (hkept ((Channels.find?_add_of_lt hid _ _).trans hc) rfl)
  · by_cases hother : other = id
    · subst hother
      obtain ⟨rest, hfound, htaken⟩ := Channels.receive_self hc
      exact .inr ⟨_, hfound, rfl, hopen, by simpa [taken, announced] using htaken⟩
    · refine .inr (hkept ?_ (if_neg hother))
      rcases Channels.receive_eq s.channels other with hsame | ⟨rest, hset⟩
      · simpa only [apply, hsame] using hc
      · simpa only [apply, hset] using
          (Channels.find?_setWaiting_of_ne _ (Ne.symm hother) rest).trans hc
  · by_cases hother : other = id
    · subst hother
      obtain ⟨hfound, htaken⟩ := Channels.drain_self hc
      exact .inr ⟨_, hfound, rfl, hopen, by simp [taken, announced, htaken]⟩
    · refine .inr (hkept ?_ (if_neg hother))
      rcases Channels.drain_eq s.channels other with hsame | ⟨rest, hset⟩
      · simpa only [apply, hsame] using hc
      · simpa only [apply, hset] using
          (Channels.find?_setWaiting_of_ne _ (Ne.symm hother) rest).trans hc
  · by_cases hother : id = other
    · subst hother
      exact .inl ⟨rfl, Channels.find?_drop_self _ _⟩
    · exact .inr (hkept ((Channels.find?_drop_of_ne _ hother).trans hc) rfl)
  · exact absurd rfl hu

/-- Over a run that leaves the channels open, a channel whose receiver is held at
the end has been sent exactly what was announced and is wanted. -/
theorem sent_applyAll {us : List Update} (hn : s.channels.Numbered)
    (hc : s.channels.find? id = some c) (hopen : c.isOpen = true)
    (hus : ∀ u ∈ us, u ≠ .closeAll) {last : Channel}
    (hlast : (s.applyAll us).channels.find? id = some last) :
    last.scope = c.scope ∧ last.isOpen = true ∧
      takenAll id s us ++ last.waiting =
        c.waiting ++ (s.announcedAll us).filter c.scope.wants := by
  induction us generalizing s c with
  | nil =>
      obtain rfl : c = last := Option.some.inj (hc.symm.trans hlast)
      exact ⟨rfl, hopen, by simp [takenAll, announcedAll]⟩
  | cons u rest ih =>
      have hid := Channels.id_lt_of_find? hn hc
      rw [applyAll_cons] at hlast
      rcases sent_apply hc hid hopen (hus u List.mem_cons_self) with
        ⟨_, hgone⟩ | ⟨c', hc', hscope, hopen', hsent⟩
      · have hnever :=
          not_held_applyAll (Nat.lt_of_lt_of_le hid (nextId_le_apply s u)) hgone rest
        rw [hnever] at hlast
        cases hlast
      · obtain ⟨hscope', hlastOpen, hsent'⟩ := ih (numbered_apply hn u) hc' hopen'
          (fun v hv => hus v (List.mem_cons_of_mem _ hv)) hlast
        refine ⟨hscope'.trans hscope, hlastOpen, ?_⟩
        rw [takenAll, announcedAll, List.append_assoc, hsent', ← List.append_assoc, hsent, hscope,
          List.filter_append, List.append_assoc]

theorem numbered_applyAll (h : s.channels.Numbered) (us : List Update) :
    (s.applyAll us).channels.Numbered := by
  induction us generalizing s with
  | nil => exact h
  | cons u rest ih => exact ih (numbered_apply h u)

/-- An update that neither takes from a channel nor ends it. -/
def Update.spares (id : Nat) : Update → Prop
  | .receive other | .drain other | .dropWatch other => other ≠ id
  | .closeAll => False
  | _ => True

theorem taken_of_spares {u : Update} (h : u.spares id) : s.taken id u = [] := by
  cases u with
  | receive other => exact if_neg h
  | drain other => exact if_neg h
  | _ => rfl

/-- A channel that a run spares gains what is announced and wanted. -/
theorem find?_applyAll_of_spares {us : List Update} (hn : s.channels.Numbered)
    (hc : s.channels.find? id = some c) (hopen : c.isOpen = true)
    (hus : ∀ u ∈ us, u.spares id) :
    (s.applyAll us).channels.find? id =
      some { c with waiting := c.waiting ++ (s.announcedAll us).filter c.scope.wants } := by
  induction us generalizing s c with
  | nil =>
      simp only [applyAll_nil, announcedAll, List.filter_nil, List.append_nil]
      exact hc
  | cons u rest ih =>
      have hu := hus u List.mem_cons_self
      have hid := Channels.id_lt_of_find? hn hc
      have hne : u ≠ .closeAll := by
        rintro rfl
        exact hu
      rcases sent_apply hc hid hopen hne with ⟨rfl, _⟩ | ⟨c', hc', hscope, hopen', hsent⟩
      · exact absurd rfl hu
      · have hrest := ih (numbered_apply hn u) hc' hopen'
          (fun v hv => hus v (List.mem_cons_of_mem _ hv))
        rw [taken_of_spares hu, List.nil_append] at hsent
        have hsame : c'.id = c.id := (Channels.find?_id hc').trans (Channels.find?_id hc).symm
        rw [applyAll_cons, hrest, announcedAll, List.filter_append, hsent, hscope, hopen', hsame,
          hopen, List.append_assoc]

end Rollcall.Store
