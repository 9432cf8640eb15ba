import Rollcall.Etcd.Client
import Rollcall.Proofs.Channels

/-!
What a forwarder makes of one response. It tells the receiver each change whose
key is text, in order, and remembers the revision after the last of them; a
response about a compaction or a cancellation becomes a refresh. Only a revision
at the end of its range stops it half way.
-/

namespace Rollcall.Etcd

/-- The change that an event of a response tells of, if its key is text. -/
def WatchEvent.change? (e : WatchEvent) : Option Change :=
  (e.kv.bind Link.toPair?).map (fun pair => ⟨if e.isPut then .update else .delete, pair⟩)

def toldBy (events : List WatchEvent) : List Change := events.filterMap WatchEvent.change?

def nextAfter (start : Int) (cs : List Change) : Int :=
  (cs.getLast?.map (fun c => c.version + 1)).getD start

theorem nextAfter_cons (start : Int) (c : Change) (cs : List Change) :
    nextAfter start (c :: cs) = nextAfter (c.version + 1) cs := by
  unfold nextAfter
  simp only [List.getLast?_cons, Option.map_some, Option.getD_some]
  cases cs.getLast? <;> rfl

namespace Forwarder

variable {f : Forwarder} {cs : Channels} {c : Channel}

/-- While its receiver is there, an event is put behind what waits. -/
theorem sendOne_eq (hc : cs.find? f.channel = some c) (hopen : c.isOpen = true) (e : Event) :
    ∃ cs', f.sendOne cs e = some cs' ∧
      cs'.find? f.channel = some { c with waiting := c.waiting ++ [e] } := by
  have hheld : cs.isHeld f.channel = true := by simp [Channels.isHeld, hc]
  refine ⟨cs.sendTo f.channel e, by rw [sendOne, if_pos hheld], ?_⟩
  have hid : c.id = f.channel := Channels.find?_id hc
  have hkeep : ∀ d : Channel, (if d.isOpen && decide (d.id = f.channel) then
      { d with waiting := d.waiting ++ [e] } else d).id = d.id := by
    intro d
    split <;> rfl
  rw [Channels.sendTo, Channels.sendIf, Channels.find?_update _ _ hkeep, hc, Option.map_some]
  simp [hopen, hid]

/-- One event of a response: it tells of no change and is passed over, or moves the next
revision behind its change and is sent; at the last revision of 64 bits the forwarder
crashes. -/
theorem sendEvents_cons (f : Forwarder) (cs : Channels) (e : WatchEvent)
    (rest : List WatchEvent) :
    f.sendEvents cs (e :: rest) =
      match e.change? with
      | none => f.sendEvents cs rest
      | some change =>
          if change.version + 1 < 0x8000000000000000 then
            let f := { f with nextRevision := change.version + 1 }
            match f.sendOne cs (.change change) with
            | some cs => f.sendEvents cs rest
            | none => (.receiverGone, f, cs)
          else (.crash, f, cs) := by
  rw [sendEvents, WatchEvent.change?]
  cases e.kv.bind Link.toPair? with
  | none => rfl
  | some pair => rfl

/-- The receiver is sent the changes of the response, or the first of them if the
forwarder comes to the end of the revisions. -/
theorem sendEvents_spec (hc : cs.find? f.channel = some c) (hopen : c.isOpen = true)
    (events : List WatchEvent) :
    ∃ result f' cs' sent, f.sendEvents cs events = (result, f', cs') ∧ sent <+: toldBy events ∧
      cs'.find? f.channel = some { c with waiting := c.waiting ++ sent.map Event.change } ∧
      (result = .all ∧ sent = toldBy events ∧
          f' = { f with nextRevision := nextAfter f.nextRevision sent } ∨
        result = .crash ∧ f'.channel = f.channel ∧
          ∃ c ∈ toldBy events, 0x8000000000000000 ≤ c.version + 1) := by
  induction events generalizing f cs c with
  | nil =>
      refine ⟨.all, f, cs, [], rfl, List.nil_prefix, ?_, .inl ⟨rfl, rfl, rfl⟩⟩
      simpa using hc
  | cons e rest ih =>
      rw [sendEvents_cons]
      cases hchange : e.change? with
      | none =>
          have htold : toldBy (e :: rest) = toldBy rest := List.filterMap_cons_none hchange
          rw [htold]
          exact ih hc hopen
      | some change =>
          have htold : toldBy (e :: rest) = change :: toldBy rest :=
            List.filterMap_cons_some hchange
          rw [htold]
          by_cases hfits : change.version + 1 < 0x8000000000000000
          · let f₁ : Forwarder := { f with nextRevision := change.version + 1 }
            have hc₁ : cs.find? f₁.channel = some c := hc
            obtain ⟨cs₁, hsend, hcs₁⟩ := sendOne_eq hc₁ hopen (.change change)
            obtain ⟨result, f', cs', sent, hrest, hprefix, hcs', hresult⟩ :=
              ih hcs₁ (c := { c with waiting := c.waiting ++ [.change change] }) hopen
            refine ⟨result, f', cs', change :: sent, ?_, ?_, ?_, ?_⟩
            · simp only [if_pos hfits, hsend, f₁] at hrest ⊢
              exact hrest
            · exact (List.prefix_cons_inj change).mpr hprefix
            · rw [hcs']
              simp
            · rcases hresult with ⟨rfl, rfl, rfl⟩ | ⟨rfl, hchannel, last, hlast, hend⟩
              · exact .inl ⟨rfl, rfl, by rw [nextAfter_cons]⟩
              · exact .inr ⟨rfl, hchannel, last, List.mem_cons_of_mem _ hlast, hend⟩
          · refine ⟨.crash, f, cs, [], ?_, List.nil_prefix, ?_,
              .inr ⟨rfl, rfl, change, List.mem_cons_self, Int.not_lt.mp hfits⟩⟩
            · simp only [if_neg hfits]
            · simpa using hc

end Forwarder

end Rollcall.Etcd
