import Rollcall.Proofs.Channels
import Rollcall.Store

/-!
The history of a store. The changes that a store has made are numbered one after
the other, the revision counts them, and the history is what is left of them
after those up to `compacted` are gone. Both places that cut the history, the
bound on its length and a compaction, take changes from its front and move
`compacted` by as many. Main statements: `trim_eq`, `dropCovered_eq` and that a
publication and a compaction keep a store `Coherent`.
-/

namespace Rollcall

/-- Changes whose versions count up by one, from the first after `version`. -/
def Consecutive : Int → List Change → Prop
  | _, [] => True
  | version, c :: rest => c.version = version + 1 ∧ Consecutive (version + 1) rest

def versionsBetween (first last : Int) : List Int :=
  (List.range (last - first).toNat).map (fun (i : Nat) => first + 1 + i)

namespace Consecutive

/-- Two lists of changes count up as one if the second goes on where the first ends. -/
theorem append_iff {version : Int} {xs ys : List Change} :
    Consecutive version (xs ++ ys) ↔
      Consecutive version xs ∧ Consecutive (version + xs.length) ys := by
  induction xs generalizing version with
  | nil => simp [Consecutive]
  | cons c rest ih =>
      have hshift :
          version + 1 + (rest.length : Int) = version + ((rest.length + 1 : Nat) : Int) := by
        omega
      simp only [List.cons_append, Consecutive, ih, List.length_cons, hshift, and_assoc]

/-- Consecutive changes lie after the version that they start from, and there are as many of
them as versions up to the last. -/
theorem lt_version {version : Int} {cs : List Change} (h : Consecutive version cs) :
    ∀ c ∈ cs, version < c.version ∧ c.version ≤ version + cs.length := by
  induction cs generalizing version with
  | nil =>
      intro c member
      cases member
  | cons first rest ih =>
      obtain ⟨hfirst, hrest⟩ := h
      intro c member
      rw [List.length_cons]
      rcases List.mem_cons.mp member with rfl | hc
      · omega
      · have hc' := ih hrest c hc
        omega

theorem ascending {version : Int} {cs : List Change} (h : Consecutive version cs) :
    cs.Pairwise (fun a b => a.version < b.version) := by
  induction cs generalizing version with
  | nil => exact .nil
  | cons first rest ih =>
      obtain ⟨hfirst, hrest⟩ := h
      refine List.pairwise_cons.mpr ⟨?_, ih hrest⟩
      intro c member
      have hc := lt_version hrest c member
      omega

/-- Numbered changes after a version are those from a position on. -/
theorem filter_lt {version after : Int} {cs : List Change} (h : Consecutive version cs) :
    cs.filter (fun c => after < c.version) = cs.drop (after - version).toNat := by
  induction cs generalizing version with
  | nil => simp
  | cons first rest ih =>
      obtain ⟨hfirst, hrest⟩ := h
      by_cases hlt : after < first.version
      · have hzero : (after - version).toNat = 0 := by omega
        have hall : ∀ c ∈ first :: rest, decide (after < c.version) = true := by
          intro c member
          rcases List.mem_cons.mp member with rfl | hc
          · simpa using hlt
          · have hc' := lt_version hrest c hc
            simp only [decide_eq_true_eq]
            omega
        rw [hzero, List.drop_zero]
        exact List.filter_eq_self.mpr hall
      · have hsucc : (after - version).toNat = (after - (version + 1)).toNat + 1 := by omega
        rw [List.filter_cons_of_neg (by simpa using hlt), ih hrest, hsucc, List.drop_succ_cons]

/-- The versions of consecutive changes are all the integers of an interval, none left out. -/
theorem map_version {version : Int} {cs : List Change} (h : Consecutive version cs) :
    cs.map Change.version = versionsBetween version (version + cs.length) := by
  have hlength : (version + (cs.length : Int) - version).toNat = cs.length := by omega
  rw [versionsBetween, hlength]
  induction cs generalizing version with
  | nil => rfl
  | cons first rest ih =>
      obtain ⟨hfirst, hrest⟩ := h
      rw [List.map_cons, ih hrest (by omega), List.length_cons, List.range_succ_eq_map,
        List.map_cons, List.map_map, hfirst]
      refine List.cons_eq_cons.mpr ⟨by simp, List.map_congr_left ?_⟩
      intro i _
      simp only [Function.comp_apply, Nat.succ_eq_add_one]
      omega

end Consecutive

namespace Store

/-- The bound cuts as many changes as there are too many, from the oldest on, and
`compacted` becomes the version of the last one that is cut. -/
theorem trim_eq (limit : Nat) {compacted : Int} {cs : List Change}
    (h : Consecutive compacted cs) :
    trim limit compacted cs =
      (compacted + (cs.length - limit : Nat), cs.drop (cs.length - limit)) := by
  induction cs generalizing compacted with
  | nil => simp [trim]
  | cons c rest ih =>
      obtain ⟨hc, hrest⟩ := h
      rw [trim]
      split
      · rename_i hlong
        have hsucc : (c :: rest).length - limit = (rest.length - limit) + 1 := by
          rw [List.length_cons]
          omega
        rw [hc, ih hrest, hsucc, List.drop_succ_cons]
        refine Prod.ext ?_ rfl
        simp only
        omega
      · rename_i hshort
        have hzero : (c :: rest).length - limit = 0 := by
          rw [List.length_cons]
          omega
        rw [hzero, List.drop_zero, Int.natCast_zero, Int.add_zero]

theorem dropCovered_eq (revision : Int) {compacted : Int} {cs : List Change}
    (h : Consecutive compacted cs) :
    dropCovered revision compacted cs =
      (compacted + (min cs.length (revision - compacted).toNat : Nat),
        cs.drop (min cs.length (revision - compacted).toNat)) := by
  induction cs generalizing compacted with
  | nil => simp [dropCovered]
  | cons c rest ih =>
      obtain ⟨hc, hrest⟩ := h
      rw [dropCovered]
      split
      · rename_i hcovered
        have hsucc : min (c :: rest).length (revision - compacted).toNat =
            min rest.length (revision - (compacted + 1)).toNat + 1 := by
          rw [List.length_cons]
          omega
        rw [hc, ih hrest, hsucc, List.drop_succ_cons]
        refine Prod.ext ?_ rfl
        simp only
        omega
      · rename_i hkept
        have hzero : min (c :: rest).length (revision - compacted).toNat = 0 := by
          rw [List.length_cons]
          omega
        rw [hzero, List.drop_zero, Int.natCast_zero, Int.add_zero]

/-- A store that has made the changes `made`, and whose history holds the last of
them. -/
structure Coherent (s : Store) (made : List Change) : Prop where
  consecutive : Consecutive 0 made
  revision_eq : s.revision = made.length
  retained : ∃ lost : List Change, made = lost ++ s.history ∧ s.compacted = lost.length
  bounded : s.history.length ≤ s.historyLimit

namespace Coherent

variable {s : Store} {made : List Change}

theorem create (limit : Nat) : Coherent (Store.create limit) [] where
  consecutive := trivial
  revision_eq := rfl
  retained := ⟨[], rfl, rfl⟩
  bounded := Nat.zero_le _

/-- The history goes on from `compacted` up to the revision, so it holds one change for each
version in between and none is missing. -/
theorem history_consecutive (h : Coherent s made) :
    Consecutive s.compacted s.history ∧ s.revision = s.compacted + s.history.length := by
  obtain ⟨lost, hmade, hlost⟩ := h.retained
  have hsplit := Consecutive.append_iff.mp (hmade ▸ h.consecutive)
  have hlength := congrArg List.length hmade
  have hrevision := h.revision_eq
  rw [List.length_append] at hlength
  constructor
  · simpa [hlost] using hsplit.2
  · omega

/-- The history is the part of the changes made that is newer than `compacted`, so what it
holds depends on the changes and that one number. -/
theorem history_eq_filter (h : Coherent s made) :
    s.history = made.filter (fun c => s.compacted < c.version) := by
  obtain ⟨lost, hmade, hlost⟩ := h.retained
  rw [h.consecutive.filter_lt, hmade, hlost]
  simp

/-- What keeps a store coherent depends on these four parts of it alone. -/
theorem congr {t : Store} (h : Coherent s made) (hrevision : t.revision = s.revision)
    (hcompacted : t.compacted = s.compacted) (hhistory : t.history = s.history)
    (hlimit : t.historyLimit = s.historyLimit) : Coherent t made where
  consecutive := h.consecutive
  revision_eq := hrevision.trans h.revision_eq
  retained := by
    rw [hcompacted, hhistory]
    exact h.retained
  bounded := by
    rw [hhistory, hlimit]
    exact h.bounded

theorem publish_eq (h : Coherent s made) (entries : Table String Entry) {c : Change}
    (hc : c.version = s.revision + 1) :
    let t := Store.publish { s with revision := s.revision + 1, entries } c
    t.compacted = s.compacted + (s.history.length + 1 - s.historyLimit : Nat) ∧
      t.history = (s.history ++ [c]).drop (s.history.length + 1 - s.historyLimit) := by
  obtain ⟨hhistory, hrevision⟩ := h.history_consecutive
  have hnew : Consecutive s.compacted (s.history ++ [c]) :=
    Consecutive.append_iff.mpr ⟨hhistory, ⟨by omega, trivial⟩⟩
  have hlength : (s.history ++ [c]).length = s.history.length + 1 := by simp
  have htrim := trim_eq s.historyLimit hnew
  rw [hlength] at htrim
  intro t
  constructor
  · simp only [t, Store.publish, htrim]
  · simp only [t, Store.publish, htrim]

/-- A publication adds its change to those made, whatever the bound cuts. -/
theorem publish (h : Coherent s made) (entries : Table String Entry) {c : Change}
    (hc : c.version = s.revision + 1) :
    Coherent (Store.publish { s with revision := s.revision + 1, entries } c) (made ++ [c]) := by
  obtain ⟨hcompacted, hkept⟩ := h.publish_eq entries hc
  obtain ⟨lost, hmade, hlost⟩ := h.retained
  have hrevision := h.revision_eq
  refine ⟨?_, ?_, ?_, ?_⟩
  · refine Consecutive.append_iff.mpr ⟨h.consecutive, ⟨?_, trivial⟩⟩
    omega
  · simp only [Store.publish, List.length_append, List.length_singleton]
    omega
  · refine ⟨lost ++ (s.history ++ [c]).take (s.history.length + 1 - s.historyLimit), ?_, ?_⟩
    · rw [hkept, List.append_assoc, List.take_append_drop, hmade, List.append_assoc]
    · rw [hcompacted, hlost, List.length_append, List.length_take, List.length_append,
        List.length_singleton]
      omega
  · rw [hkept, List.length_drop, List.length_append, List.length_singleton]
    simp only [Store.publish]
    omega

/-- What a compaction cuts; it never counts more as lost than was made. -/
theorem compact_eq (h : Coherent s made) (revision : Int) :
    let cut := min s.history.length (revision - s.compacted).toNat
    (Store.compact s revision).compacted = s.compacted + cut ∧
      (Store.compact s revision).history = s.history.drop cut := by
  obtain ⟨hhistory, hrevision⟩ := h.history_consecutive
  have hdrop := dropCovered_eq revision hhistory
  intro cut
  constructor
  · simp only [Store.compact, hdrop]
    split <;> omega
  · simp only [Store.compact, hdrop]
    rfl

/-- A compaction makes no change; it only moves the line up to which the history is lost. -/
theorem compact (h : Coherent s made) (revision : Int) :
    Coherent (Store.compact s revision) made := by
  obtain ⟨hcompacted, hkept⟩ := h.compact_eq revision
  obtain ⟨lost, hmade, hlost⟩ := h.retained
  have hbounded := h.bounded
  refine ⟨h.consecutive, h.revision_eq, ?_, ?_⟩
  · refine ⟨lost ++ s.history.take (min s.history.length (revision - s.compacted).toNat), ?_, ?_⟩
    · rw [hkept, List.append_assoc, List.take_append_drop]
      exact hmade
    · rw [hcompacted, List.length_append, List.length_take]
      omega
  · rw [hkept, List.length_drop]
    simp only [Store.compact]
    omega

end Coherent

end Store

end Rollcall
