import CodeAtlas.Proofs.Graph.Kin
import Mathlib.Data.List.Nodup
import Mathlib.Logic.Relation

namespace CodeAtlas

/-- Has a review added nothing to the code of a node? -/
def Definition.Unmarked (d : Definition) : Prop :=
  d.extraLabels = [] ∧ d.extraAttributes = []

theorem Definition.Unmarked.kin {d d' : Definition} (h : d.Unmarked) (hb : d'.blank = d.blank) :
    d'.Unmarked := by
  obtain ⟨-, -, -, -, -, -, hlabels, hattributes⟩ := Definition.mk.inj hb
  exact ⟨hlabels.trans h.1, hattributes.trans h.2⟩

theorem Node.Kin.containable {n n' : Node} (h : n.Kin n') : n'.containable = n.containable := by
  have hblank : ∀ n : Node, n.blank.containable = n.containable := by
    intro n
    unfold Node.blank Node.containable
    cases n.content <;> rfl
  rw [← hblank n, ← hblank n', h]

namespace NodeTable
variable {t t' : NodeTable} {key k m : NodeKey} {n n' : Node}

def Child (t : NodeTable) (key member : NodeKey) : Prop :=
  ∃ n, t.get? member = some n ∧ n.parent = some key

theorem Child.lt_size (h : t.Child key m) : m < t.nodes.size := by
  obtain ⟨n, hn, -⟩ := h
  exact NodeTable.lt_size hn

theorem Child.unique (h : t.Child key m) (h' : t.Child k m) : key = k := by
  obtain ⟨n, hn, hp⟩ := h
  obtain ⟨n', hn', hp'⟩ := h'
  cases hn.symm.trans hn'
  exact Option.some.inj (hp.symm.trans hp')

theorem child_push_self : (t.push n).Child key t.nodes.size ↔ n.parent = some key := by
  simp [Child, get?_push_self]

theorem child_push (hm : m ≠ t.nodes.size) : (t.push n).Child key m ↔ t.Child key m := by
  simp [Child, get?_push, hm]

theorem Child.keeps (h : t.Child key m) (hk : t.Keeps t') : t'.Child key m := by
  obtain ⟨n, hn, hp⟩ := h
  obtain ⟨n', hn', hkin⟩ := hk m n hn
  exact ⟨n', hn', hkin.parent.trans hp⟩

/-- Is there neither a folder nor a file at a path? -/
def Vacant (t : NodeTable) (path : String) : Prop :=
  ∀ key n, t.get? key = some n → n.containable = true → n.path ≠ path

/-- Where a node stands: at the top, in a folder, or in a definition at its own path. Its parent
was there before, and its trail is that of the parent and one segment more. -/
inductive Lineage (t : NodeTable) (key : NodeKey) (n : Node) : Prop where
  | top (content : n.content = .folder) (parent : n.parent = none)
      (trail : n.trail = [.named "/" n.name])
  | entry {k : NodeKey} {m : Node} (above : t.get? k = some m) (before : k < key)
      (folder : m.content = .folder) (content : n.containable = true) (parent : n.parent = some k)
      (trail : n.trail = m.trail ++ [.named "/" n.name])
  | inner {k : NodeKey} {m : Node} {d d' : Definition} (above : t.get? k = some m)
      (before : k < key) (around : m.content = .definition d') (path : m.path = n.path)
      (content : n.content = .definition d) (scope : d.scope ≠ .file) (parent : n.parent = some k)
      (trail : n.trail = m.trail ++ [.named d.scope.mark n.name])

theorem Lineage.keeps (h : t.Lineage key n) (hk : t.Keeps t') (hn : n.Kin n') :
    t'.Lineage key n' := by
  cases h with
  | top content parent trail =>
    exact .top (hn.folder content) (hn.parent.trans parent) (by rw [hn.trail, hn.name, trail])
  | entry above before folder content parent trail =>
    obtain ⟨m', hm', hkin⟩ := hk _ _ above
    refine .entry hm' before (hkin.folder folder) (hn.containable.trans content)
      (hn.parent.trans parent) ?_
    rw [hn.trail, hn.name, hkin.trail, trail]
  | inner above before around path content scope parent trail =>
    obtain ⟨m', hm', hkin⟩ := hk _ _ above
    obtain ⟨d', hd', hb⟩ := hn.definition content
    obtain ⟨d'', hd'', -⟩ := hkin.definition around
    have hs := Node.Kin.scope hb
    refine .inner hm' before hd'' (by rw [hkin.path, hn.path, path]) hd' (hs ▸ scope)
      (hn.parent.trans parent) ?_
    rw [hn.trail, hn.name, hkin.trail, hs, trail]

end NodeTable

open NodeTable

/-- A table that grows, and the nodes in it that are still to become members of their folder. -/
structure Growth where
  waiting : List NodeKey
  table : NodeTable

namespace Growth
variable {e : Option Environment} {s s' : Growth} {w w' : List NodeKey} {t t' : NodeTable}
  {key m : NodeKey} {n : Node}

inductive Step (e : Option Environment) : Growth → Growth → Prop where
  /-- A folder that stands in no other. -/
  | top {w : List NodeKey} {t : NodeTable} {path : String} (name : String) (level : Json)
      (vacant : t.Vacant path) :
      Step e ⟨w, t⟩ ⟨w, t.push (t.fresh .folder path (.str name) level none e)⟩
  /-- A folder in a folder. -/
  | folder {w : List NodeKey} {t : NodeTable} {path : String} {key : NodeKey} {n : Node}
      (name : String) (level : Json) (above : t.get? key = some n) (content : n.content = .folder)
      (vacant : t.Vacant path) :
      Step e ⟨w, t⟩ ⟨w ++ [t.nodes.size],
        t.push (t.fresh .folder path (.str name) level (some key) e)⟩
  /-- A file in a folder. -/
  | file {w : List NodeKey} {t : NodeTable} {path : String} {key : NodeKey} {n : Node}
      {d : Definition} (name : String) (level : Json) (above : t.get? key = some n)
      (content : n.content = .folder) (vacant : t.Vacant path) (scope : d.scope = .file)
      (unmarked : d.Unmarked) :
      Step e ⟨w, t⟩ ⟨w ++ [t.nodes.size],
        t.push (t.fresh (.definition d) path (.str name) level (some key) e)⟩
  /-- A class or function in a definition, which has it as a member at once. -/
  | inner {w : List NodeKey} {t : NodeTable} {key : NodeKey} {n : Node} {d d' : Definition}
      (name : String) (level : Json) (above : t.get? key = some n)
      (content : n.content = .definition d') (scope : d.scope ≠ .file) (unmarked : d.Unmarked) :
      Step e ⟨w, t⟩ ⟨w, (t.push (t.fresh (.definition d) n.path (.str name) level (some key)
        e)).appendMembers key [t.nodes.size]⟩
  | retold {w : List NodeKey} {t t' : NodeTable} (h : t.Retold t') : Step e ⟨w, t⟩ ⟨w, t'⟩
  /-- The first node that waits becomes a member of its folder. -/
  | contain {w : List NodeKey} {t : NodeTable} {key m : NodeKey} {n : Node}
      (child : t.Child key m) (above : t.get? key = some n) (content : n.content = .folder) :
      Step e ⟨m :: w, t⟩ ⟨w, t.appendMembers key [m]⟩

def Run (e : Option Environment) : Growth → Growth → Prop :=
  Relation.ReflTransGen (Step e)

theorem Step.run (h : Step e s s') : Run e s s' :=
  Relation.ReflTransGen.single h

theorem Step.keeps (h : Step e s s') : s.table.Keeps s'.table := by
  cases h with
  | top | folder | file => exact keeps_push _
  | inner => exact (keeps_push _).trans (keeps_appendMembers _ _)
  | retold h => exact h.keeps
  | contain => exact keeps_appendMembers _ _

theorem Run.keeps (h : Run e s s') : s.table.Keeps s'.table := by
  induction h with
  | refl => exact .refl _
  | tail _ step ih => exact ih.trans step.keeps

/-- A table that has grown from nothing. -/
structure Sound (e : Option Environment) (s : Growth) : Prop where
  tidy : s.table.Tidy
  lineage : ∀ {key n}, s.table.get? key = some n → s.table.Lineage key n
  named : ∀ {key n}, s.table.get? key = some n → ∃ text, n.name = .str text
  environment : ∀ {key n}, s.table.get? key = some n → n.environment = e
  unmarked : ∀ {key n d}, s.table.get? key = some n → n.content = .definition d → d.Unmarked
  /-- No two folders or files stand at one path. -/
  apart : ∀ {key key' n n'}, s.table.get? key = some n → s.table.get? key' = some n' →
    n.containable = true → n'.containable = true → n.path = n'.path → key = key'
  members : ∀ {key m}, m ∈ s.table.members key ↔ s.table.Child key m ∧ m ∉ s.waiting
  members_nodup : ∀ key, (s.table.members key).Nodup
  waiting_lt : ∀ m ∈ s.waiting, m < s.table.nodes.size
  waiting_nodup : s.waiting.Nodup

theorem sound_empty (e : Option Environment) : Sound e ⟨[], {}⟩ where
  tidy := tidy_empty
  lineage h := by simp [get?] at h
  named h := by simp [get?] at h
  environment h := by simp [get?] at h
  unmarked h := by simp [get?] at h
  apart h := by simp [get?] at h
  members {key m} := by simp [NodeTable.members, Child, get?]
  members_nodup key := by simp [NodeTable.members, get?]
  waiting_lt m hm := by cases hm
  waiting_nodup := .nil

/-- A new node waits to become a member, if it has a parent. -/
theorem Sound.push (h : Sound e ⟨w, t⟩) (hown : n.members = t.groups.size)
    (hline : (t.push n).Lineage t.nodes.size n) (hname : ∃ text, n.name = .str text)
    (he : n.environment = e) (hmarks : ∀ d, n.content = .definition d → d.Unmarked)
    (hvacant : n.containable = true → t.Vacant n.path) :
    Sound e ⟨w ++ (n.parent.map fun _ => t.nodes.size).toList, t.push n⟩ := by
  have hwaiting : ∀ m, m ∈ w ++ (n.parent.map fun _ => t.nodes.size).toList ↔
      m ∈ w ∨ m = t.nodes.size ∧ n.parent.isSome := by
    intro m
    cases n.parent <;> simp
  refine ⟨h.tidy.push hown, ?_, ?_, ?_, ?_, ?_, ?_, ?_, ?_, ?_⟩
  · intro key m hm
    rcases of_get?_push hm with ⟨rfl, rfl⟩ | hm
    · exact hline
    · exact (h.lineage hm).keeps (keeps_push n) (.refl m)
  · intro key m hm
    rcases of_get?_push hm with ⟨-, rfl⟩ | hm
    · exact hname
    · exact h.named hm
  · intro key m hm
    rcases of_get?_push hm with ⟨-, rfl⟩ | hm
    · exact he
    · exact h.environment hm
  · intro key m d hm hd
    rcases of_get?_push hm with ⟨-, rfl⟩ | hm
    · exact hmarks d hd
    · exact h.unmarked hm hd
  · intro key key' m m' hm hm' hc hc' hpath
    rcases of_get?_push hm with ⟨rfl, rfl⟩ | hold
    · rcases of_get?_push hm' with ⟨rfl, -⟩ | hold'
      · rfl
      · exact absurd hpath.symm (hvacant hc _ _ hold' hc')
    · rcases of_get?_push hm' with ⟨rfl, rfl⟩ | hold'
      · exact absurd hpath (hvacant hc' _ _ hold hc)
      · exact h.apart hold hold' hc hc' hpath
  · intro key m
    rw [h.tidy.members_push hown, h.members, hwaiting]
    by_cases hm : m = t.nodes.size
    · subst hm
      rw [child_push_self]
      constructor
      · intro hc
        exact absurd hc.1.lt_size (Nat.lt_irrefl _)
      · rintro ⟨hp, hnot⟩
        exact absurd (Or.inr ⟨rfl, by simp [hp]⟩) hnot
    · simp [child_push hm, hm]
  · intro key
    rw [h.tidy.members_push hown]
    exact h.members_nodup key
  · intro m hm
    rw [size_push]
    rcases (hwaiting m).mp hm with hm | ⟨rfl, -⟩
    · exact Nat.lt_succ_of_lt (h.waiting_lt m hm)
    · exact Nat.lt_succ_self _
  · have hfresh : t.nodes.size ∉ w := fun hm => Nat.lt_irrefl _ (h.waiting_lt _ hm)
    cases n.parent with
    | none => simpa using h.waiting_nodup
    | some key =>
      simpa [List.nodup_append] using ⟨h.waiting_nodup, fun m hm hne => hfresh (hne ▸ hm)⟩

/-- A node that waits becomes a member of its parent. -/
theorem Sound.take (h : Sound e ⟨w, t⟩) (hw : w.Perm (m :: w')) (hchild : t.Child key m)
    (hkey : t.get? key = some n) (htidy : (t.appendMembers key [m]).Tidy) :
    Sound e ⟨w', t.appendMembers key [m]⟩ := by
  have hsplit := List.nodup_cons.mp (hw.nodup_iff.mp h.waiting_nodup)
  have hwaits : m ∈ w := hw.mem_iff.mpr List.mem_cons_self
  have hother : ∀ {k}, k ≠ m → (k ∉ w' ↔ k ∉ w) := by
    intro k hne
    rw [hw.mem_iff, List.mem_cons, not_or]
    exact (and_iff_right hne).symm
  refine ⟨htidy, fun hn => ?_, fun hn => h.named ((get?_appendMembers ..).symm.trans hn),
    fun hn => h.environment ((get?_appendMembers ..).symm.trans hn),
    fun hn => h.unmarked ((get?_appendMembers ..).symm.trans hn), fun hn hn' =>
      h.apart ((get?_appendMembers ..).symm.trans hn) ((get?_appendMembers ..).symm.trans hn'),
    fun {k j} => ?_, fun k => ?_, fun k hk => ?_, hsplit.2⟩
  · rw [get?_appendMembers] at hn
    exact (h.lineage hn).keeps (keeps_appendMembers _ _) (.refl _)
  · have hchildren : (t.appendMembers key [m]).Child k j ↔ t.Child k j := by
      simp [Child, get?_appendMembers]
    rw [h.tidy.members_appendMembers (lt_size hkey), hchildren]
    by_cases hj : j = m
    · subst hj
      have hold : j ∉ t.members k := fun hmem => (h.members.mp hmem).2 hwaits
      split
      · rename_i heq
        subst heq
        simp [hchild, hsplit.1]
      · rename_i hne
        exact ⟨fun hmem => absurd hmem hold, fun hc => absurd (hc.1.unique hchild) hne⟩
    · rw [hother hj]
      split
      · rename_i heq
        subst heq
        simp [h.members, hj]
      · exact h.members
  · rw [h.tidy.members_appendMembers (lt_size hkey)]
    split
    · have hnot : m ∉ t.members key := fun hmem => (h.members.mp hmem).2 hwaits
      simpa [List.nodup_append] using ⟨h.members_nodup key, fun k hk hne => hnot (hne ▸ hk)⟩
    · exact h.members_nodup k
  · rw [size_appendMembers]
    exact h.waiting_lt k (hw.mem_iff.mpr (List.mem_cons_of_mem _ hk))

theorem Sound.members_retold (h : Sound e ⟨w, t⟩) (hr : t.Retold t') (key : NodeKey) :
    t'.members key = t.members key := by
  rw [(hr.regular h.tidy.toRegular).members_eq, hr.groups, h.tidy.members_eq]

theorem Sound.retold (h : Sound e ⟨w, t⟩) (hr : t.Retold t') : Sound e ⟨w, t'⟩ := by
  have hmembers := h.members_retold hr
  refine ⟨hr.tidy h.tidy, fun hn' => ?_, fun hn' => ?_, fun hn' => ?_, fun hn' hd' => ?_,
    fun hm hm' hc hc' hpath => ?_, fun {k j} => ?_, fun k => ?_, fun k hk => ?_, h.waiting_nodup⟩
  · obtain ⟨n, hn, hkin⟩ := hr.get? hn'
    exact (h.lineage hn).keeps hr.keeps hkin
  · obtain ⟨n, hn, hkin⟩ := hr.get? hn'
    rw [hkin.name]
    exact h.named hn
  · obtain ⟨n, hn, hkin⟩ := hr.get? hn'
    exact hkin.environment.trans (h.environment hn)
  · obtain ⟨n, hn, hkin⟩ := hr.get? hn'
    obtain ⟨d, hd, hb⟩ := hkin.symm.definition hd'
    exact (h.unmarked hn hd).kin hb.symm
  · obtain ⟨n, hn, hkin⟩ := hr.get? hm
    obtain ⟨n', hn', hkin'⟩ := hr.get? hm'
    exact h.apart hn hn' (hkin.containable.symm.trans hc) (hkin'.containable.symm.trans hc')
      (by rw [← hkin.path, ← hkin'.path, hpath])
  · have hchildren : t'.Child k j ↔ t.Child k j := by
      constructor
      · rintro ⟨n', hn', hp⟩
        obtain ⟨n, hn, hkin⟩ := hr.get? hn'
        exact ⟨n, hn, hkin.parent.symm.trans hp⟩
      · exact fun hc => hc.keeps hr.keeps
    rw [hmembers, hchildren]
    exact h.members
  · rw [hmembers]
    exact h.members_nodup k
  · rw [hr.size]
    exact h.waiting_lt k hk

theorem Step.sound (hs : Step e s s') (h : Sound e s) : Sound e s' := by
  cases hs with
  | @top w t path name level vacant =>
    simpa [fresh] using h.push (n := t.fresh .folder path (.str name) level none e) rfl
      (.top rfl rfl rfl) ⟨name, rfl⟩ rfl (by simp [fresh]) fun _ => vacant
  | @folder w t path key n name level above content vacant =>
    refine h.push (n := t.fresh .folder path (.str name) level (some key) e) rfl ?_ ⟨name, rfl⟩ rfl
      (by simp [fresh]) fun _ => vacant
    exact .entry (get?_push_of_some above) (lt_size above) content rfl rfl
      (by simp [fresh, trailBelow, above])
  | @file w t path key n d name level above content vacant scope unmarked =>
    refine h.push (n := t.fresh (.definition d) path (.str name) level (some key) e) rfl ?_
      ⟨name, rfl⟩ rfl ?_ fun _ => vacant
    · exact .entry (get?_push_of_some above) (lt_size above) content
        (by simp [fresh, Node.containable, scope]) rfl
        (by simp [fresh, trailBelow, above, scope, Scope.mark])
    · intro d' hd'
      cases hd'
      exact unmarked
  | @inner w t key n d d' name level above content scope unmarked =>
    let fresh' := t.fresh (.definition d) n.path (.str name) level (some key) e
    have hnew := t.get?_push_self fresh'
    have hpush : Sound e ⟨w ++ [t.nodes.size], t.push fresh'⟩ := by
      refine h.push (n := fresh') rfl ?_ ⟨name, rfl⟩ rfl ?_ ?_
      · exact .inner (get?_push_of_some above) (lt_size above) content rfl rfl scope rfl
          (by simp [fresh', fresh, trailBelow, above])
      · intro d'' hd''
        cases hd''
        exact unmarked
      · intro hc
        simp [fresh', fresh, Node.containable, scope] at hc
    refine hpush.take (List.perm_append_singleton _ _) ⟨_, hnew, rfl⟩ (get?_push_of_some above) ?_
    refine hpush.tidy.appendMembers (get?_push_of_some above) (by simp) fun _ _ m hm => ?_
    rw [List.mem_singleton] at hm
    subst hm
    exact ⟨_, hnew, ⟨d, rfl, scope⟩, rfl⟩
  | retold hr => exact h.retold hr
  | @contain w t key m n child above content =>
    refine h.take (.refl _) child above (h.tidy.appendMembers_folder above content ?_)
    intro j hj
    rw [List.mem_singleton] at hj
    exact h.waiting_lt j (hj ▸ List.mem_cons_self)

/-- Whatever the steps were, what has grown from nothing is a forest. -/
theorem Run.sound (h : Run e ⟨[], {}⟩ s) : Sound e s := by
  induction h with
  | refl => exact sound_empty e
  | tail _ step ih => exact step.sound ih

/-- Members are added at the end of a list, and none is taken away. -/
theorem Step.members_prefix (hs : Step e s s') (h : Sound e s) (key : NodeKey) :
    s.table.members key <+: s'.table.members key := by
  cases hs with
  | top | folder | file =>
    exact ⟨[], by rw [List.append_nil, h.tidy.members_push rfl]⟩
  | inner name level above content scope unmarked =>
    rw [(h.tidy.push rfl).members_appendMembers (lt_size (get?_push_of_some above)),
      h.tidy.members_push rfl, h.tidy.members_push rfl]
    split
    · rename_i heq
      rw [heq]
      exact List.prefix_append _ _
    · exact List.prefix_rfl
  | retold hr =>
    exact ⟨[], by rw [List.append_nil, h.members_retold hr]⟩
  | contain child above content =>
    rw [h.tidy.members_appendMembers (lt_size above)]
    split
    · rename_i heq
      rw [heq]
      exact List.prefix_append _ _
    · exact List.prefix_rfl

theorem Run.members_prefix (h : Run e ⟨[], {}⟩ s) (hr : Run e s s') (key : NodeKey) :
    s.table.members key <+: s'.table.members key := by
  induction hr with
  | refl => exact List.prefix_rfl
  | tail hr step ih => exact ih.trans (step.members_prefix (Run.sound (h.trans hr)) key)

/-- A node that gets no member that it has not had has the same members as before. -/
theorem Run.members_eq (h : Run e ⟨[], {}⟩ s) (hr : Run e s s')
    (hold : ∀ m ∈ s'.table.members key, m ∈ s.table.members key) :
    s'.table.members key = s.table.members key := by
  obtain ⟨added, hadded⟩ := h.members_prefix hr key
  have hnodup := (Run.sound (h.trans hr)).members_nodup key
  rw [← hadded] at hnodup hold ⊢
  have hnone : added = [] := by
    apply List.eq_nil_iff_forall_not_mem.mpr
    intro m hm
    have hmem := hold m (List.mem_append_right _ hm)
    exact (List.nodup_append.mp hnodup).2.2 m hmem m hm rfl
  rw [hnone, List.append_nil]

end Growth
end CodeAtlas
