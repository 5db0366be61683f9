import CodeAtlas.Graph.Family
import CodeAtlas.Proofs.Action
import CodeAtlas.Proofs.Outcome
import Mathlib.Data.List.Basic

namespace CodeAtlas

theorem Digest.check_nil (s : String) : Digest.check [] s = .ok () := by
  have hany : s.toList.any ([] : List Char).contains = false := by simp
  rw [check, hany]
  rfl

namespace NodeTable
variable {t : NodeTable} {key : NodeKey}

theorem lt_size {n : Node} (h : t.get? key = some n) : key < t.nodes.size :=
  (Array.getElem?_eq_some_iff.mp h).1

theorem get?_of_lt (h : key < t.nodes.size) : ∃ n, t.get? key = some n :=
  ⟨_, Array.getElem?_eq_getElem h⟩

theorem get?_eq_none : t.get? key = none ↔ t.nodes.size ≤ key :=
  Array.getElem?_eq_none_iff

theorem node_eq_ok {n : Node} : t.node key = .ok n ↔ t.get? key = some n := by
  rw [node]
  split <;> simp [*]

theorem definition_eq_ok {d : Definition} :
    t.definition key = .ok d ↔ ∃ n, t.get? key = some n ∧ n.content = .definition d := by
  simp only [definition, Outcome.bind_eq_ok, node_eq_ok]
  refine exists_congr fun n => and_congr_right fun _ => ?_
  split <;> simp_all

theorem folder_eq_ok {n : Node} :
    t.folder key = .ok n ↔ t.get? key = some n ∧ n.content = .folder := by
  simp only [folder, Outcome.bind_eq_ok, node_eq_ok]
  constructor
  · rintro ⟨n', hn', h⟩
    split at h
    · rename_i hc
      cases h
      exact ⟨hn', hc⟩
    · cases h
  · rintro ⟨hn, hc⟩
    refine ⟨n, hn, ?_⟩
    rw [hc]
    rfl

theorem hashedId_eq_ok {hash : String} : t.hashedId key = .ok hash ↔
    ∃ id, t.id key = .ok id ∧ Digest.check t.strays id = .ok () ∧ Digest.hex id = hash := by
  simp only [hashedId, Outcome.bind_eq_ok, Outcome.pure_eq_ok]
  constructor
  · rintro ⟨id, hid, _, hcheck, hhash⟩
    exact ⟨id, hid, hcheck, hhash⟩
  · rintro ⟨id, hid, hcheck, hhash⟩
    exact ⟨id, hid, (), hcheck, hhash⟩

/-- Where all names are text, what has an identifier has a hashed one. -/
theorem hashedId_of_id {id : String} (hs : t.strays = []) (h : t.id key = .ok id) :
    t.hashedId key = .ok (Digest.hex id) := by
  simp [hashedId, h, hs, Digest.check_nil]

theorem exists_of_id {id : String} (h : t.id key = .ok id) : ∃ n, t.get? key = some n := by
  simp only [NodeTable.id, Outcome.bind_eq_ok, node_eq_ok] at h
  obtain ⟨n, hn, -⟩ := h
  exact ⟨n, hn⟩

def push (t : NodeTable) (n : Node) : NodeTable :=
  { t with nodes := t.nodes.push n, groups := t.groups.push [] }

@[simp] theorem size_push (n : Node) : (t.push n).nodes.size = t.nodes.size + 1 := by
  simp [push]

theorem get?_push (n : Node) (key : NodeKey) :
    (t.push n).get? key = if key = t.nodes.size then some n else t.get? key := by
  simp [get?, push, Array.getElem?_push]

theorem get?_push_self (t : NodeTable) (n : Node) : (t.push n).get? t.nodes.size = some n := by
  rw [get?_push, if_pos rfl]

theorem get?_push_of_some {n m : Node} (h : t.get? key = some m) :
    (t.push n).get? key = some m := by
  rw [get?_push, if_neg (Nat.ne_of_lt (lt_size h)), h]

theorem of_get?_push {n m : Node} (h : (t.push n).get? key = some m) :
    key = t.nodes.size ∧ m = n ∨ t.get? key = some m := by
  rw [get?_push] at h
  split at h
  · rename_i hkey
    exact Or.inl ⟨hkey, (Option.some.inj h).symm⟩
  · exact Or.inr h

@[simp] theorem get?_appendMembers (key other : NodeKey) (added : List NodeKey) :
    (t.appendMembers key added).get? other = t.get? other := by
  rw [appendMembers]
  split <;> rfl

@[simp] theorem size_appendMembers (key : NodeKey) (added : List NodeKey) :
    (t.appendMembers key added).nodes.size = t.nodes.size := by
  rw [appendMembers]
  split <;> rfl

@[simp] theorem strays_appendMembers (key : NodeKey) (added : List NodeKey) :
    (t.appendMembers key added).strays = t.strays := by
  rw [appendMembers]
  split <;> rfl

theorem get?_modify (f : Node → Node) (key other : NodeKey) :
    (t.modify key f).get? other =
      if other = key then (t.get? other).map f else t.get? other := by
  simp only [get?, modify, Array.getElem?_modify, eq_comm]

def fresh (t : NodeTable) (content : Content) (path : String) (name level : Json)
    (parent : Option NodeKey) (environment : Option Environment) : Node :=
  { content, path, name, level, parent, environment
    trail := match content with
      | .bare _ => t.trailBelow parent .unnamed
      | .deleted _ => [.removed t.nodes.size]
      | .folder => t.trailBelow parent (.named "/" name)
      | .definition d => t.trailBelow parent (.named d.scope.mark name)
    members := t.groups.size }

theorem perform_insert (content : Content) (path : String) (name level : Json)
    (parent : Option NodeKey) (environment : Option Environment) (t : NodeTable) :
    (insert content path name level parent environment).perform t =
      if Path.isUri path then
        (.ok t.nodes.size, t.push (t.fresh content path name level parent environment))
      else (.error (.pathNotUri path), t) := by
  rw [insert]
  by_cases h : Path.isUri path = true
  · rw [if_pos h, h]
    rfl
  · rw [if_neg h, Bool.eq_false_iff.mpr h]
    rfl

theorem ends_insert {content : Content} {path : String} {name level : Json}
    {parent : Option NodeKey} {environment : Option Environment}
    {done : NodeKey → NodeTable → Prop} {failed : NodeTable → Prop}
    (hd : Path.isUri path = true →
      done t.nodes.size (t.push (t.fresh content path name level parent environment)))
    (hf : failed t) : (insert content path name level parent environment).Ends t done failed := by
  rw [Action.Ends, perform_insert]
  by_cases h : Path.isUri path = true
  · rw [if_pos h]
    exact hd h
  · rw [if_neg h]
    exact hf

/-- Each node has a member list of its own. -/
structure Regular (t : NodeTable) : Prop where
  size : t.groups.size = t.nodes.size
  own : ∀ {key n}, t.get? key = some n → n.members = key

namespace Regular

theorem members_eq (ht : t.Regular) (key : NodeKey) :
    t.members key = (t.groups[key]?).getD [] := by
  cases h : t.get? key with
  | some n => simp only [members, h, ht.own h]
  | none =>
    have hle : t.groups.size ≤ key := by
      rw [ht.size]
      exact get?_eq_none.mp h
    simp [members, h, hle]

theorem push (ht : t.Regular) {n : Node} (hn : n.members = t.groups.size) :
    (t.push n).Regular where
  size := by simp [NodeTable.push, ht.size]
  own {key m} h := by
    rw [get?_push] at h
    split at h
    · rename_i hkey
      cases h
      rw [hn, ht.size, hkey]
    · exact ht.own h

theorem members_push (ht : t.Regular) {n : Node} (hn : n.members = t.groups.size)
    (key : NodeKey) : (t.push n).members key = t.members key := by
  rw [(ht.push hn).members_eq, ht.members_eq, NodeTable.push, Array.getElem?_push]
  split
  · rename_i hkey
    simp [hkey]
  · rfl

theorem appendMembers (ht : t.Regular) (key : NodeKey) (added : List NodeKey) :
    (t.appendMembers key added).Regular where
  size := by
    rw [size_appendMembers, NodeTable.appendMembers]
    split <;> simp [ht.size]
  own h := ht.own ((get?_appendMembers ..).symm.trans h)

theorem members_appendMembers (ht : t.Regular) {key : NodeKey} (h : key < t.nodes.size)
    (other : NodeKey) (added : List NodeKey) :
    (t.appendMembers key added).members other =
      if other = key then t.members key ++ added else t.members other := by
  obtain ⟨n, hn⟩ := get?_of_lt h
  rw [(ht.appendMembers key added).members_eq, ht.members_eq, ht.members_eq]
  simp only [NodeTable.appendMembers, hn, ht.own hn]
  have hlt : key < t.groups.size := ht.size ▸ h
  split
  · rename_i heq
    subst heq
    rw [Array.getElem?_modify, if_pos rfl]
    simp [hlt]
  · rename_i hne
    simp [Array.getElem?_modify, Ne.symm hne]

end Regular

def IsInner (n : Node) : Prop :=
  ∃ d, n.content = .definition d ∧ d.scope ≠ .file

theorem IsInner.label_ne {n : Node} (h : IsInner n) : n.label ≠ .file := by
  obtain ⟨d, hd, hs⟩ := h
  simp only [Node.label, hd]
  cases hscope : d.scope with
  | file => exact absurd hscope hs
  | class_ => simp [Scope.label]
  | function => simp [Scope.label]

/-- Moreover, members are nodes of the table, and those of a definition are classes and functions at
its path. If nothing else is said, all names are text. -/
structure Tidy (t : NodeTable) (strays : List Char := []) : Prop extends Regular t where
  strays_eq : t.strays = strays
  inside : ∀ {key m}, m ∈ t.members key → m < t.nodes.size
  inner : ∀ {key n d}, t.get? key = some n → n.content = .definition d → ∀ m ∈ t.members key,
    ∃ member, t.get? m = some member ∧ IsInner member ∧ member.path = n.path

theorem tidy_empty (strays : List Char := []) : Tidy { strays } strays where
  strays_eq := rfl
  size := rfl
  own h := by simp [get?] at h
  inside h := by simp [members, get?] at h
  inner h := by simp [get?] at h

namespace Tidy
variable {strays : List Char}

theorem self (ht : t.Tidy strays) : t.Tidy t.strays :=
  ht.strays_eq.symm ▸ ht

theorem push (ht : t.Tidy strays) {n : Node} (hn : n.members = t.groups.size) :
    (t.push n).Tidy strays where
  toRegular := ht.toRegular.push hn
  strays_eq := ht.strays_eq
  inside {key m} hm := by
    rw [ht.members_push hn] at hm
    exact Nat.lt_of_lt_of_le (ht.inside hm) (by simp)
  inner {key m d} h hd k hk := by
    rw [ht.members_push hn] at hk
    have hkey : t.get? key = some m := by
      rw [get?_push] at h
      split at h
      · rename_i heq
        rw [members, get?_eq_none.mpr (Nat.le_of_eq heq.symm)] at hk
        cases hk
      · exact h
    obtain ⟨member, hm, hmember⟩ := ht.inner hkey hd k hk
    exact ⟨member, get?_push_of_some hm, hmember⟩

/-- A node may take nodes as members, if those of a definition are classes and functions at its
path. -/
theorem appendMembers (ht : t.Tidy strays) {n : Node} (hn : t.get? key = some n)
    {added : List NodeKey} (hadded : ∀ m ∈ added, m < t.nodes.size)
    (h : ∀ d, n.content = .definition d → ∀ m ∈ added,
      ∃ member, t.get? m = some member ∧ IsInner member ∧ member.path = n.path) :
    (t.appendMembers key added).Tidy strays where
  toRegular := ht.toRegular.appendMembers key added
  strays_eq := (strays_appendMembers key added).trans ht.strays_eq
  inside {other m} hm := by
    rw [ht.members_appendMembers (lt_size hn)] at hm
    rw [size_appendMembers]
    split at hm
    · exact (List.mem_append.mp hm).elim ht.inside (hadded m)
    · exact ht.inside hm
  inner {other m d} hm hd k hk := by
    simp only [get?_appendMembers] at hm ⊢
    rw [ht.members_appendMembers (lt_size hn)] at hk
    split at hk
    · rename_i heq
      subst heq
      cases hn.symm.trans hm
      rcases List.mem_append.mp hk with hk | hk
      · exact ht.inner hm hd k hk
      · exact h d hd k hk
    · exact ht.inner hm hd k hk

theorem appendMembers_folder (ht : t.Tidy strays) {n : Node} (hn : t.get? key = some n)
    (hfolder : n.content = .folder) {added : List NodeKey}
    (hadded : ∀ m ∈ added, m < t.nodes.size) : (t.appendMembers key added).Tidy strays := by
  refine ht.appendMembers hn hadded fun d hd => ?_
  rw [hfolder] at hd
  cases hd

end Tidy
end NodeTable
end CodeAtlas
