import Rollcall.Key

/-!
The layout of keys. The keys with one prefix stand together in the order of
keys, and the first segment after the service root is the name of the service
whose prefix a key has. That segment ends at the first slash, so names that begin
alike and addresses with slashes in them do not meet, and no counter is among the
nodes. Main statements: `startsWith_of_between`, `serviceName?_of_startsWith` and
`keys_isolated`.
-/

namespace Rollcall.Key

/-- A service name fills one segment of a key. -/
def IsServiceName (name : String) : Prop := name ≠ "" ∧ '/' ∉ name.toList

instance : DecidablePred IsServiceName := fun name =>
  inferInstanceAs (Decidable (name ≠ "" ∧ '/' ∉ name.toList))

theorem startsWith_iff {root key : String} :
    startsWith root key = true ↔ root.toList <+: key.toList :=
  List.isPrefixOf_iff_prefix

section Order

theorem not_lt_of_prefix {root key : List Char} (h : root <+: key) : ¬ key < root := by
  induction root generalizing key with
  | nil => exact List.not_lt_nil key
  | cons c rest ih =>
      obtain ⟨tail, rfl⟩ := h
      intro hlt
      rcases List.cons_lt_cons_iff.mp hlt with hc | ⟨_, hrest⟩
      · exact Std.lt_irrefl hc
      · exact ih (List.prefix_append rest tail) hrest

/-- What lies between a prefix and a key that has it, has it too. -/
theorem prefix_of_between {root key later : List Char} (hfrom : ¬ key < root)
    (hto : key < later) (h : root <+: later) : root <+: key := by
  induction root generalizing key later with
  | nil => exact List.nil_prefix
  | cons c rest ih =>
      obtain ⟨tail, rfl⟩ := h
      cases key with
      | nil => exact absurd (List.nil_lt_cons c rest) hfrom
      | cons d more =>
          have hnot : ¬ (d < c ∨ d = c ∧ more < rest) := fun hor =>
            hfrom (List.cons_lt_cons_iff.mpr hor)
          rcases List.cons_lt_cons_iff.mp hto with hlt | ⟨rfl, hlt⟩
          · exact absurd (.inl hlt) hnot
          · have hmore : ¬ more < rest := fun hless => hnot (.inr ⟨rfl, hless⟩)
            have hrest := ih hmore hlt (List.prefix_append rest tail)
            exact List.prefix_cons_inj d |>.mpr hrest

theorem not_lt_of_startsWith {root key : String} (h : startsWith root key = true) :
    ¬ key < root := by
  intro hlt
  exact not_lt_of_prefix (startsWith_iff.mp h) (String.lt_iff.mp hlt)

/-- A key that lies between a prefix and another key with that prefix has the prefix. So the
keys with one prefix stand together in the order. -/
theorem startsWith_of_between {root key later : String} (hfrom : ¬ key < root)
    (hto : key < later) (h : startsWith root later = true) : startsWith root key = true := by
  have hbelow : ¬ key.toList < root.toList := fun hlt => hfrom (String.lt_iff.mpr hlt)
  exact startsWith_iff.mpr
    (prefix_of_between hbelow (String.lt_iff.mp hto) (startsWith_iff.mp h))

end Order

section Services

variable {name other key : String}

theorem toList_servicePrefix (name : String) :
    (servicePrefix name).toList = serviceRoot.toList ++ (name.toList ++ ['/']) := by
  simp [servicePrefix]

theorem toList_service (name address : String) :
    (service name address).toList =
      serviceRoot.toList ++ (name.toList ++ '/' :: address.toList) := by
  simp [service]

/-- Whatever is under the prefix of a service is under the root of all services. -/
theorem startsWith_root_of_servicePrefix (h : startsWith (servicePrefix name) key = true) :
    startsWith serviceRoot key = true := by
  rw [startsWith_iff] at h ⊢
  rw [toList_servicePrefix] at h
  exact (List.prefix_append _ _).trans h

theorem startsWith_root_service (name address : String) :
    startsWith serviceRoot (service name address) = true := by
  rw [startsWith_iff, toList_service]
  exact List.prefix_append _ _

theorem startsWith_root_nodeId (component : String) :
    startsWith serviceRoot (nodeId component) = false := by
  rw [Bool.eq_false_iff]
  intro h
  obtain ⟨tail, htail⟩ := startsWith_iff.mp h
  rw [nodeId, String.toList_append] at htail
  simp [serviceRoot, nodeIdRoot] at htail

theorem startsWith_servicePrefix (name address : String) :
    startsWith (servicePrefix name) (service name address) = true := by
  rw [startsWith_iff, toList_servicePrefix, toList_service]
  exact ⟨address.toList, by simp⟩

/-- Under one name, different addresses have different keys, whatever characters they are
made of. -/
theorem address_injective {address otherAddress : String}
    (h : service name address = service name otherAddress) : address = otherAddress := by
  have hchars := congrArg String.toList h
  rw [toList_service, toList_service] at hchars
  have htail := List.append_cancel_left (List.append_cancel_left hchars)
  exact String.toList_inj.mp (List.cons.inj htail).2

theorem stripRoot?_append (root rest : List Char) :
    stripRoot? root (root ++ rest) = some rest := by
  have h : root.isPrefixOf (root ++ rest) = true :=
    List.isPrefixOf_iff_prefix.mpr (List.prefix_append root rest)
  rw [stripRoot?, if_pos h, List.drop_left]

theorem takeWhile_name {name : List Char} (h : '/' ∉ name) (rest : List Char) :
    (name ++ '/' :: rest).takeWhile (· ≠ '/') = name := by
  have hname : ∀ c ∈ name, decide (c ≠ '/') = true := by
    intro c member
    have hne : c ≠ '/' := fun heq => h (heq ▸ member)
    simpa using hne
  rw [List.takeWhile_append_of_pos hname]
  simp

/-- Every key under the prefix of a service names that service, whatever follows the prefix.
This needs a name without a slash, as the name is read up to the first one. -/
theorem serviceName?_of_startsWith (hname : IsServiceName name)
    (h : startsWith (servicePrefix name) key = true) :
    serviceName? serviceRoot key = some name := by
  obtain ⟨hnonempty, hslash⟩ := hname
  obtain ⟨rest, hkey⟩ := startsWith_iff.mp h
  have hlist : key.toList = serviceRoot.toList ++ (name.toList ++ '/' :: rest) := by
    rw [← hkey, toList_servicePrefix]
    simp
  have hchars : name.toList ≠ [] := fun heq => hnonempty (String.toList_eq_nil_iff.mp heq)
  rw [serviceName?, hlist, stripRoot?_append]
  simp only [takeWhile_name hslash]
  rw [String.ofList_toList]

theorem stripRoot?_eq_some {root rest keyChars : List Char}
    (h : stripRoot? root keyChars = some rest) : root <+: keyChars := by
  unfold stripRoot? at h
  split at h
  · rename_i hprefix
    exact List.isPrefixOf_iff_prefix.mp hprefix
  · cases h

/-- What a key names is a service name, and the key is under the root. -/
theorem of_serviceName? (h : serviceName? serviceRoot key = some name) :
    IsServiceName name ∧ startsWith serviceRoot key = true := by
  unfold serviceName? at h
  split at h
  · cases h
  · rename_i rest hstrip
    have hroot := startsWith_iff.mpr (stripRoot?_eq_some hstrip)
    split at h
    · cases h
    · rename_i hnonempty
      obtain rfl := Option.some.inj h
      refine ⟨⟨?_, ?_⟩, hroot⟩
      · intro hempty
        apply hnonempty
        simpa using congrArg String.toList hempty
      · rw [String.toList_ofList]
        intro member
        have hne := List.all_eq_true.mp (List.all_takeWhile) _ member
        simp at hne

/-- A key of one service has the prefix of no other, since the prefix ends with the slash
that ends the name. -/
theorem startsWith_servicePrefix_service (hname : IsServiceName name)
    (hother : IsServiceName other) (address : String) :
    startsWith (servicePrefix name) (service other address) = true ↔ other = name := by
  constructor
  · intro h
    have hfirst := serviceName?_of_startsWith hname h
    rw [serviceName?_of_startsWith hother (startsWith_servicePrefix other address)] at hfirst
    exact Option.some.inj hfirst
  · rintro rfl
    exact startsWith_servicePrefix other address

/-- A key is made in one way: its name is read off it, and the rest is the address. -/
theorem service_eq_iff (hname : IsServiceName name) (hother : IsServiceName other)
    {address otherAddress : String} :
    service name address = service other otherAddress ↔
      name = other ∧ address = otherAddress := by
  constructor
  · intro h
    have hprefix := startsWith_servicePrefix other otherAddress
    rw [← h] at hprefix
    obtain rfl := (startsWith_servicePrefix_service hother hname address).mp hprefix
    exact ⟨rfl, address_injective h⟩
  · rintro ⟨rfl, rfl⟩
    rfl

end Services

section Counters

/-- Two components have two counters. That needs nothing of their names, as nothing follows
the name in the key. -/
theorem nodeId_injective {component other : String} (h : nodeId component = nodeId other) :
    component = other := by
  have hchars := congrArg String.toList h
  rw [nodeId, nodeId, String.toList_append, String.toList_append] at hchars
  exact String.toList_inj.mp (List.append_cancel_left hchars)

theorem startsWith_nodeIdRoot_nodeId (component : String) :
    startsWith nodeIdRoot (nodeId component) = true := by
  rw [startsWith, nodeId, String.toList_append]
  exact List.isPrefixOf_iff_prefix.mpr (List.prefix_append _ _)

theorem startsWith_nodeIdRoot_service (component address : String) :
    startsWith nodeIdRoot (service component address) = false := by
  rw [Bool.eq_false_iff]
  intro h
  obtain ⟨tail, htail⟩ := List.isPrefixOf_iff_prefix.mp h
  rw [service, String.toList_append, String.toList_append, String.toList_append] at htail
  have hfirst := congrArg List.head? htail
  cases hfirst

theorem startsWith_nodeId_service (counted component address : String) :
    startsWith (nodeId counted) (service component address) = false := by
  rw [Bool.eq_false_iff]
  intro h
  have hroot := (startsWith_iff.mp (startsWith_nodeIdRoot_nodeId counted)).trans
    (startsWith_iff.mp h)
  rw [← startsWith_iff, startsWith_nodeIdRoot_service] at hroot
  cases hroot

end Counters

/-- Keys are kept apart. Of two components with service names, whatever their addresses, the
key of a node names its component, is listed under the prefix of that component only, and is
the key of no other node. Counters of two components are two, whatever their names, and the
key of a counter is neither that of a node nor what the key of a node starts with. -/
theorem keys_isolated {name other : String} (hname : IsServiceName name)
    (hother : IsServiceName other) (address otherAddress : String) :
    serviceName? serviceRoot (service name address) = some name ∧
    (startsWith (servicePrefix other) (service name address) = true ↔ name = other) ∧
    (service name address = service other otherAddress ↔
      name = other ∧ address = otherAddress) ∧
    Function.Injective nodeId ∧
    ∀ counted component address, nodeId counted ≠ service component address ∧
      startsWith (nodeId counted) (service component address) = false := by
  refine ⟨?_, ?_, ?_, ?_, ?_⟩
  · exact serviceName?_of_startsWith hname (startsWith_servicePrefix name address)
  · exact startsWith_servicePrefix_service hother hname address
  · exact service_eq_iff hname hother
  · exact fun counted component => nodeId_injective
  · intro counted component address
    have hroot := startsWith_nodeIdRoot_nodeId counted
    refine ⟨fun heq => ?_, startsWith_nodeId_service counted component address⟩
    rw [heq, startsWith_nodeIdRoot_service] at hroot
    cases hroot

/-- Two components of which one begins like the other, at addresses that spell each other's
keys. -/
theorem keys_isolated_nested :
    IsServiceName "order" ∧ IsServiceName "order.eu" ∧
      serviceName? serviceRoot (service "order" "http://service/order.eu/x") = some "order" ∧
      startsWith (servicePrefix "order.eu") (service "order" "http://service/order.eu/x") =
        false ∧
      service "order" "http://service/order.eu/x" ≠ service "order.eu" "x" := by
  have hname : IsServiceName "order" := by decide
  have hother : IsServiceName "order.eu" := by decide
  obtain ⟨hnames, hlisted, hsame, -, -⟩ :=
    keys_isolated hname hother "http://service/order.eu/x" "x"
  have hne : "order" ≠ "order.eu" := by decide
  exact ⟨hname, hother, hnames, Bool.eq_false_iff.mpr (mt hlisted.mp hne),
    fun heq => hne (hsame.mp heq).1⟩

/-- A slash in a name is one like the others. -/
example : startsWith (servicePrefix "a") (service "a/b" "x") = true ∧
    service "a/b" "x" = service "a" "b/x" := by decide

end Rollcall.Key
