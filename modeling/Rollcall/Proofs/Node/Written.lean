import Rollcall.Node.Codec
import Rollcall.Proofs.Json.Written
import Rollcall.Proofs.Table

/-!
A node is read back as it was written, whatever order its metadata is written in, but
for its time to live, of which whole milliseconds are kept, as many as 64 bits hold.
Main statements: `decode_encodeWith` and `round_trip`.
-/

namespace Rollcall.Node

open Json (Member numeral textChars objectChars)

def HasId64 (n : Node) : Prop :=
  -0x8000000000000000 ≤ n.uniqueId ∧ n.uniqueId < 0x8000000000000000

/-- The node that is read where `n` was written. -/
def written (n : Node) : Node := { n with ttl := .ofMillis n.ttl.millisWord }

/-- The text of a node with the rows of its metadata in the order given; `encode` has
them in ascending order, a writer over a hash map in any. -/
def encodeWith (rows : List (String × String)) (n : Node) : String :=
  String.ofList (objectChars [
    ("ttl_ms", Decimal.digits n.ttl.millisWord),
    ("unique_id", Decimal.intChars n.uniqueId),
    ("service", textChars n.service),
    ("address", textChars n.address),
    ("metadata", objectChars (rows.map (fun row => (row.1, textChars row.2))))])

theorem encode_eq (n : Node) : n.encode = n.encodeWith n.metadata.rows := rfl

def textMember (row : String × String) : Member :=
  ⟨row.1, Json.textChars row.2, .text (some row.2)⟩

/-- The members of a node in the order in which they are written. -/
def members (rows : List (String × String)) (n : Node) : List Member := [
  ⟨"ttl_ms", Decimal.digits n.ttl.millisWord, .number (numeral n.ttl.millisWord)⟩,
  ⟨"unique_id", Decimal.intChars n.uniqueId, .number (numeral n.uniqueId)⟩,
  ⟨"service", Json.textChars n.service, .text (some n.service)⟩,
  ⟨"address", Json.textChars n.address, .text (some n.address)⟩,
  ⟨"metadata", Json.objectChars ((rows.map textMember).map Member.written),
    .object ((rows.map textMember).map Member.read) true⟩]

section Rows

variable (rows : List (String × String)) (n : Node)

/-- A node is written as an object with its members in a fixed order; only the rows of its
metadata may come in any. -/
theorem encodeWith_eq :
    n.encodeWith rows = String.ofList (objectChars ((n.members rows).map Member.written)) := by
  have hmetadata : rows.map (fun row => (row.1, textChars row.2)) =
      (rows.map textMember).map Member.written := by
    rw [List.map_map]
    rfl
  rw [encodeWith, hmetadata]
  rfl

theorem reads_members : ∀ m ∈ n.members rows, Json.Reads m.chars m.value := by
  have hmetadata : ∀ m ∈ rows.map textMember, Json.Reads m.chars m.value := by
    intro m hm
    obtain ⟨row, -, rfl⟩ := List.mem_map.mp hm
    exact Json.reads_text row.2
  intro m hm
  simp only [members, List.mem_cons, List.not_mem_nil, or_false] at hm
  rcases hm with rfl | rfl | rfl | rfl | rfl
  · exact Json.reads_int n.ttl.millisWord
  · exact Json.reads_int n.uniqueId
  · exact Json.reads_text n.service
  · exact Json.reads_text n.address
  · exact Json.reads_object hmetadata

/-- The whole text is read as the object of the values that its members were written for,
with nothing left over. -/
theorem read_encodeWith :
    Json.read (n.encodeWith rows) = (.object ((n.members rows).map Member.read) true, true) := by
  apply Json.read_of_reads
  rw [encodeWith_eq, String.toList_ofList]
  exact Json.reads_object (n.reads_members rows)

theorem stringMembers_text :
    Json.stringMembers ((rows.map textMember).map Member.read) = .ok rows := by
  induction rows with
  | nil => rfl
  | cons row rest ih =>
      simp only [List.map_cons, Json.stringMembers, ih]
      rfl

theorem readMetadata_written :
    Fields.readMetadata (.object ((rows.map textMember).map Member.read) true) =
      .ok (.ofList rows) := by
  have hmap : Json.stringMap (.object ((rows.map textMember).map Member.read) true) = .ok rows := by
    rw [Json.stringMap, stringMembers_text]
    rfl
  rw [Fields.readMetadata, hmap]
  rfl

end Rows

/-- Of a time to live the milliseconds are written, modulo `2 ^ 64`, and these are read. -/
theorem readTtl_written (t : Span) :
    Fields.readTtl (.number (numeral t.millisWord)) = .ok (.ofMillis t.millisWord) := by
  have hword : t.millisWord < 0x10000000000000000 := Nat.mod_lt _ (by decide)
  have hnumber : (numeral t.millisWord).number = .integer t.millisWord :=
    Json.number_numeral (by omega) (by omega)
  have hnat : Json.nat64 (.number (numeral t.millisWord)) = .ok t.millisWord := by
    simp only [Json.nat64, Json.integer, hnumber]
    rw [if_pos (by omega)]
    rfl
  rw [Fields.readTtl, hnat]
  rfl

theorem int64_numeral {i : Int} (hlow : -0x8000000000000000 ≤ i) (hhigh : i < 0x8000000000000000) :
    Json.int64 (.number (numeral i)) = .ok i := by
  have hnumber : (numeral i).number = .integer i := Json.number_numeral hlow (by omega)
  simp only [Json.int64, Json.integer, hnumber]
  rw [if_pos (by omega)]

variable {n : Node}

/-- Nodes whose ids fit 64 bits are read back, in whatever order their metadata comes. -/
theorem decode_encodeWith (hid : n.HasId64) {rows : List (String × String)}
    (hrows : rows.Perm n.metadata.rows) : decode (n.encodeWith rows) = .ok n.written := by
  have hfields : Fields.none.addAll ((n.members rows).map Member.read) =
      .ok ⟨some (.ofMillis n.ttl.millisWord), some n.uniqueId, some n.service, some n.address,
        some n.metadata⟩ := by
    simp only [members, List.map_cons, List.map_nil, Member.read, Fields.addAll, Json.key,
      Fields.add, readTtl_written, int64_numeral hid.1 hid.2, readMetadata_written,
      Table.ofList_of_perm hrows, Json.string]
    rfl
  have hnode : ofJson (.object ((n.members rows).map Member.read) true) = .ok n.written := by
    rw [ofJson, ofMembers, hfields]
    rfl
  simp only [decode, Json.decode, read_encodeWith]
  rw [hnode]
  rfl

/-- The order in which a node is written here is one of those orders. -/
theorem decode_encode (hid : n.HasId64) : decode n.encode = .ok n.written := by
  rw [encode_eq]
  exact decode_encodeWith hid (List.Perm.refl n.metadata.rows)

/-- A node keeps its time to live if that is a whole number of milliseconds which fits
64 bits. -/
theorem written_eq_self_iff : n.written = n ↔ ∃ k < 0x10000000000000000, n.ttl = .ofMillis k := by
  constructor
  · intro h
    have hmillis : n.ttl.millisWord < 0x10000000000000000 := Nat.mod_lt _ (by decide)
    exact ⟨n.ttl.millisWord, hmillis, (congrArg Node.ttl h).symm⟩
  · rintro ⟨k, hk, httl⟩
    have hmillis : n.ttl.millis = k := by
      rw [httl]
      exact Nat.mul_div_cancel k (by decide)
    have hword : n.ttl.millisWord = k := by
      rw [Span.millisWord, hmillis]
      exact Nat.mod_eq_of_lt hk
    rw [written, hword, ← httl]

/-- Whatever a node holds: its text is read back as a node that differs from it in the
time to live alone, of which the whole milliseconds remain, modulo `2 ^ 64`. So exactly
the nodes that live for a whole number of milliseconds below that are read back as they
were. In what order the metadata is written makes no difference. -/
theorem round_trip (hid : n.HasId64) :
    decode n.encode = .ok { n with ttl := .ofMillis (n.ttl.millis % 0x10000000000000000) } ∧
      (decode n.encode = .ok n ↔ ∃ k < 0x10000000000000000, n.ttl = .ofMillis k) ∧
      ∀ rows, rows.Perm n.metadata.rows → decode (n.encodeWith rows) = decode n.encode := by
  have hdecode : decode n.encode = .ok n.written := decode_encode hid
  refine ⟨hdecode, ?_, fun rows hrows => (decode_encodeWith hid hrows).trans hdecode.symm⟩
  rw [hdecode, ← written_eq_self_iff]
  constructor
  · exact Except.ok.inj
  · exact congrArg Except.ok

/-- A node with the least id and texts that need escapes, and a time to live of which a
part of a millisecond is lost. -/
def sampleNode : Node :=
  ((create "a\"\\b" "\x01\n\x7f😀/\x1f" (-0x8000000000000000) ⟨1500000⟩).withMetadata
    "k\t" "\u2028").withMetadata "" "\""

/-- The metadata come in another order than the table has them, with a tab, a quote and a
line separator in them; of the time to live one millisecond is left. -/
theorem round_trip_escaped :
    let rows := [("k\t", "\u2028"), ("", "\"")]
    sampleNode.HasId64 ∧ rows.Perm sampleNode.metadata.rows ∧ rows ≠ sampleNode.metadata.rows ∧
      decode (sampleNode.encodeWith rows) = .ok { sampleNode with ttl := .ofMillis 1 } ∧
      decode sampleNode.encode ≠ .ok sampleNode := by
  intro rows
  have hid : sampleNode.HasId64 := ⟨by decide, by decide⟩
  have hrows : rows.Perm sampleNode.metadata.rows := by decide
  obtain ⟨hdecode, hiff, horder⟩ := round_trip hid
  refine ⟨hid, hrows, by decide, (horder rows hrows).trans (hdecode.trans rfl), ?_⟩
  rw [Ne, hiff]
  rintro ⟨k, -, httl⟩
  have hnanos : 1500000 = k * 1000000 := congrArg Span.nanos httl
  omega

end Rollcall.Node
