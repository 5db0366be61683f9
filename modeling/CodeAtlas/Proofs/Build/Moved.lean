import CodeAtlas.Proofs.Build.Mark
import CodeAtlas.Proofs.Skeleton.Moving

namespace CodeAtlas
open NodeTable

namespace NodeTable
variable {t u v : NodeTable} {base : Nat} {key m : NodeKey}

theorem Retold.inside (h : Retold t u) (ht : t.Regular) (hm : t.Inside key m) :
    u.Inside key m := by
  simpa only [Inside, h.members ht] using hm

theorem Remarked.text?_eq (h : Remarked t u) {d : Definition} (hd : t.definition key = .ok d) :
    u.text? key = t.text? key := by
  obtain ⟨d', hd', hplain⟩ := h.definition hd
  obtain ⟨-, -, -, htext, -⟩ := Definition.mk.inj hplain
  rw [NodeTable.text?_eq hd, NodeTable.text?_eq hd', htext]

theorem Twins.text?_eq {e : Option Environment} (h : Twins base e t u) (hle : base ≤ key)
    {d : Definition} (hd : t.definition key = .ok d) : u.text? key = t.text? key := by
  rw [NodeTable.text?_eq hd, NodeTable.text?_eq (h.definition hle hd)]

/-- Where no skeleton came before the marks, there is still the first text. -/
theorem Remarked.text?_eq_of_told {done : NodeKey → Prop} (h : Remarked u v)
    (htold : Told t done u) {d : Definition} (hd : t.definition key = .ok d)
    (hbodies : done key → t.omissions key = []) : v.text? key = t.text? key := by
  obtain ⟨d', hd', -⟩ := htold.retold.definition hd
  rw [h.text?_eq hd', htold.kept key hbodies]

/-- The line for a body names the node of the body. -/
theorem Legible.hash_of_mem (ht : Legible base t) (hle : base ≤ key) {o : Omission}
    (ho : o ∈ t.omissions key) :
    ∃ m ∈ t.members key, ∃ id, t.id m = .ok id ∧ o.hash = Digest.hex id := by
  obtain ⟨m, hm, ho⟩ := List.mem_filterMap.mp ho
  obtain ⟨-, ⟨d, hd⟩, id, hid⟩ := ht.known_of_mem hle hm
  rw [omission?_eq hd ht.tidy.strays_eq hid, Option.map_eq_some_iff] at ho
  obtain ⟨body, -, rfl⟩ := ho
  exact ⟨m, hm, id, hid, rfl⟩

/-- A planted file is moved, if it is told by skeletons and then marked. -/
theorem Remarked.moved {uri : String} {keys : List NodeKey} {e : Option Environment}
    (h : Remarked u v) (ht : t.Tidy) (hroot : Hierarchy.Rooted uri key keys t)
    (hretold : Retold t u) (hunder : ∀ m, m = key ∨ u.Inside key m → StandsUnder e m v) :
    Moved key e t v where
  toSameCode := (hretold.sameCode ht.toRegular).trans h.sameCode
  tidy := h.reshaped.tidy (hretold.tidy ht)
  node {m n} hle hn := by
    obtain ⟨n₁, hn₁, hkin⟩ := hretold.keeps _ _ hn
    obtain ⟨n₂, hn₂, -, halike⟩ := h.reshaped.node hn₁
    refine ⟨n₂, hn₂, halike.trail.trans hkin.trail, hunder m ?_ n₂ hn₂⟩
    exact (hroot.inside (hroot.mem_iff.mpr ⟨hle, lt_size hn⟩)).imp_right
      (hretold.inside ht.toRegular)

/-- What a table tells of a node: its identifier, the hash of that, and its code. -/
structure Tells (t : NodeTable) (key : NodeKey) (id text : String) : Prop where
  known : t.id key = .ok id
  hashed : t.hashedId key = .ok (Digest.hex id)
  told : t.text? key = some text

theorem Tells.of_id {id text : String} (hs : t.strays = []) (hid : t.id key = .ok id)
    (htext : t.text? key = some text) : t.Tells key id text :=
  ⟨hid, hashedId_of_id hs hid, htext⟩

/-- What is moved to one environment in two ways tells the same, once skeletons were made. -/
theorem Moved.exists_tells {e : Option Environment} {u' v' : NodeTable} {k : NodeKey} {n : Node}
    (hu : Moved key e t u) (hv : Moved key e t v) (ht : Legible key t) (hnamed : NamedFrom key t)
    (htu : Told u (u.Reaches key) u') (htv : Told v (v.Reaches key) v') (hle : key ≤ k)
    (hn : t.get? k = some n) {source : String} (hsource : t.text? k = some source)
    (hkeptu : (t.Reaches key k → t.omissions k = []) → u.text? k = t.text? k)
    (hkeptv : (t.Reaches key k → t.omissions k = []) → v.text? k = t.text? k) :
    ∃ text, u'.Tells k (Environment.lead e ++ spell n.trail) text ∧
      v'.Tells k (Environment.lead e ++ spell n.trail) text ∧
      t.Retells key k (u'.omissions k) text := by
  have hlt := lt_size hn
  have hsame : u'.omissions k = v'.omissions k := by
    rw [(hu.legible ht hnamed).omissions_retold hle htu.retold,
      (hv.legible ht hnamed).omissions_retold hle htv.retold, hu.omissions_eq hv ht hnamed hle]
  obtain ⟨text, htext, hretells⟩ :=
    hu.retells ht hnamed htu (Nat.le_refl key) hle hlt hsource hkeptu
  obtain ⟨text', htext', hretells'⟩ :=
    hv.retells ht hnamed htv (Nat.le_refl key) hle hlt hsource hkeptv
  obtain rfl := (hsame ▸ hretells).unique hretells'
  refine ⟨text, .of_id (htu.retold.strays.trans hu.tidy.strays_eq) ?_ htext,
    .of_id (htv.retold.strays.trans hv.tidy.strays_eq) ?_ htext', hretells⟩
  · exact htu.retold.keeps.id (hu.id_eq hnamed hle hn)
  · exact htv.retold.keeps.id (hv.id_eq hnamed hle hn)

/-- The lines for bodies name nodes by their identifiers in the environment they are moved to. -/
theorem Moved.names_of_mem {e e' : Option Environment} {u' : NodeTable} {o : Omission}
    (h : Moved base e' t u) (hown : Moved base e t t) (ht : Legible base t)
    (hnamed : NamedFrom base t) (hretold : Retold u u') (hle : base ≤ key)
    (ho : o ∈ u'.omissions key) :
    ∃ m ∈ t.members key, ∃ id, u'.id m = .ok id ∧ o.hash = Digest.hex id ∧
      (Environment.lead e ≠ Environment.lead e' → t.id m ≠ .ok id) := by
  have hu := h.legible ht hnamed
  obtain ⟨m, hm, id, hid, hhash⟩ := (hretold.legible hu).hash_of_mem hle ho
  rw [hretold.members hu.tidy.toRegular, h.members hle] at hm
  have hle' := (ht.known_of_mem hle hm).1
  obtain ⟨n, hn⟩ := get?_of_lt (ht.tidy.inside hm)
  refine ⟨m, hm, id, hid, hhash, ?_⟩
  intro hne hid'
  have hnew : id = Environment.lead e' ++ spell n.trail :=
    Except.ok.inj (hid.symm.trans (hretold.keeps.id (h.id_eq hnamed hle' hn)))
  have hold : id = Environment.lead e ++ spell n.trail :=
    Except.ok.inj (hid'.symm.trans (hown.id_eq hnamed hle' hn))
  exact hne ((String.append_left_inj _).mp (hold.symm.trans hnew))

end NodeTable

namespace Review
variable {base : Nat} {key : NodeKey}

/-- To mark a file is to hand down the marks, which moves all that is inside, and to make skeletons
of what has come out. -/
theorem ends_mark_told (r : Review) {b : Builder} {n : Node} {change : FileChange}
    (ht : Legible base b.atlas.table) (hnamed : NamedFrom base b.atlas.table) (hle : base ≤ key)
    (hn : b.atlas.table.get? key = some n)
    (hchange : FileChange.ofPath r.changes (.str n.path) = .ok change) :
    (r.mark key).Ends b (fun _ b' => ∃ t, Remarked b.atlas.table t ∧
      (∀ m, m = key ∨ b.atlas.table.Inside key m → StandsUnder r.environment m t) ∧
      Told t (t.Reaches key) b'.atlas.table) fun _ => False := by
  have hlt := lt_size hn
  rw [mark, Action.ends_bind]
  refine Builder.ends_table ?_
  rw [Action.ends_bind, hashedId_eq ht.tidy.strays_eq hn (hnamed hle hn),
    Action.ends_ofExcept_ok, Action.ends_bind, node_eq_ok.mpr hn, Action.ends_ofExcept_ok,
    Action.ends_bind, hchange, Action.ends_ofExcept_ok, Action.ends_bind,
    Surroundings.ends_onTable]
  refine (ends_handDown ht hle hlt r change).mono (fun _ t h => ?_) fun _ h => h
  obtain ⟨hremarked, hunder⟩ := h
  have hlegible := hremarked.legible ht hnamed
  have hlt' : key < t.nodes.size := hremarked.size ▸ hlt
  have hskeleton : ∀ b₁ : Builder, b₁.atlas.table = t →
      (Builder.onTable (skeletonize key)).Ends b₁ (fun _ b' => ∃ t, Remarked b.atlas.table t ∧
        (∀ m, m = key ∨ b.atlas.table.Inside key m → StandsUnder r.environment m t) ∧
        Told t (t.Reaches key) b'.atlas.table) fun _ => False := by
    rintro b₁ rfl
    rw [Surroundings.ends_onTable]
    refine (ends_skeletonize_told hlegible hle hlt').mono (fun _ t' h => ?_) fun _ h => h
    exact ⟨_, hremarked, hunder, h⟩
  split
  · obtain ⟨-, id, hid⟩ := hlegible.known hle hlt'
    rw [Action.ends_bind]
    refine Builder.ends_table ?_
    rw [Action.ends_bind, hashedId_of_id hlegible.tidy.strays_eq hid, Action.ends_ofExcept_ok,
      Action.ends_bind, relateOutside, Action.ends_modify]
    exact hskeleton _ rfl
  · exact hskeleton _ rfl

end Review

/-- A file that is planted in one environment, told by skeletons and then marked by a review tells
of all its nodes what it tells if it is planted in the environment of the review and told by
skeletons once. All lines for bodies name nodes by their identifiers there, and none by its
identifier before. -/
theorem marked_as_if_planted_for_review (w : Workspace) {l : Option Language}
    {e : Option Environment} {above : Option NodeKey} {file : ProjectFile}
    {level : Int} {t t' : NodeTable} {keys : List NodeKey} (r : Review) {change : FileChange}
    (ht : t.Tidy) (habove : Hierarchy.NamedAbove t above)
    (hplant : (Hierarchy.plantFile w l e above file (.int level)).perform t =
      (.ok keys, t'))
    (hchange : FileChange.ofPath r.changes (.str file.uri) = .ok change) :
    ∃ told u told',
      (skeletonize t.nodes.size).perform t' = (.ok (), told) ∧
      (Hierarchy.plantFile w l r.environment above file
        (.int level)).perform t = (.ok keys, u) ∧
      (skeletonize t.nodes.size).perform u = (.ok (), told') ∧
      ∀ b : Builder, b.atlas.table = told → ∃ b',
        (r.mark t.nodes.size).perform b = (.ok (), b') ∧
        ∀ k ∈ keys, ∃ own text,
          t'.id k = .ok (Environment.lead e ++ own) ∧
          b'.atlas.table.Tells k (Environment.lead r.environment ++ own) text ∧
          told'.Tells k (Environment.lead r.environment ++ own) text ∧
          t'.Retells t.nodes.size k (b'.atlas.table.omissions k) text ∧
          ∀ o ∈ b'.atlas.table.omissions k, ∃ m ∈ t'.members k, m ∈ keys ∧ ∃ id,
            b'.atlas.table.id m = .ok id ∧ o.hash = Digest.hex id ∧
            (Environment.lead e ≠ Environment.lead r.environment → t'.id m ≠ .ok id) := by
  obtain ⟨hroot, hall⟩ := Hierarchy.plantFile_twins ht.toRegular habove hplant
  obtain ⟨u, hplant', htwins⟩ := hall r.environment
  obtain ⟨t₁, hplant₁, htwins₁⟩ := hall e
  cases hplant₁.symm.trans hplant
  have hids : ∀ p, above = some p → ∃ id, t.id p = .ok id := by
    intro p hp
    obtain ⟨n, hn, hnamed⟩ := habove p hp
    exact ⟨_, id_eq hn hnamed⟩
  have hlegible := (Hierarchy.plantFile_legible w l e file _ ht hids).of_ok hplant
  have hlegible' := (Hierarchy.plantFile_legible w l r.environment file _ ht hids).of_ok
    hplant'
  obtain ⟨n, hn, hpath⟩ := hroot.path
  have hlt := lt_size hn
  obtain ⟨_, told, hrun, htold⟩ :=
    (ends_skeletonize_told hlegible (Nat.le_refl _) hlt).exists_ok
  obtain ⟨_, told', hrun', htold'⟩ :=
    (ends_skeletonize_told hlegible' (Nat.le_refl _) (htwins.size ▸ hlt)).exists_ok
  refine ⟨told, u, told', hrun, hplant', hrun', ?_⟩
  rintro b rfl
  obtain ⟨n', hn', hkin⟩ := htold.retold.keeps _ _ hn
  have hchange' : FileChange.ofPath r.changes (.str n'.path) = .ok change := by
    rw [hkin.path, hpath, hchange]
  obtain ⟨_, b', hmark, v, hremarked, hunder, hmarked⟩ :=
    (r.ends_mark_told (htold.retold.legible hlegible) (htold.retold.namedFrom hroot.named)
      (Nat.le_refl _) hn' hchange').exists_ok
  have hmoved := hremarked.moved hlegible.tidy hroot htold.retold hunder
  have hown := htwins₁.moved hlegible.tidy hlegible.tidy
  refine ⟨b', hmark, fun k hk => ?_⟩
  obtain ⟨hle, hlt⟩ := hroot.mem_iff.mp hk
  obtain ⟨⟨d, hd⟩, -⟩ := hlegible.known hle hlt
  obtain ⟨source, hsource⟩ := hroot.text hk
  obtain ⟨m, hm⟩ := get?_of_lt hlt
  obtain ⟨text, htells, htells', hretells⟩ := hmoved.exists_tells
    (htwins.moved hlegible.tidy hlegible'.tidy) hlegible hroot.named hmarked htold' hle hm hsource
    (hremarked.text?_eq_of_told htold hd) fun _ => htwins.text?_eq hle hd
  refine ⟨_, text, hown.id_eq hroot.named hle hm, htells, htells', hretells, ?_⟩
  intro o ho
  obtain ⟨m', hm', hrest⟩ :=
    hmoved.names_of_mem hown hlegible hroot.named hmarked.retold hle ho
  have hkey := hroot.mem_iff.mpr ⟨(hlegible.known_of_mem hle hm').1, hlegible.tidy.inside hm'⟩
  exact ⟨m', hm', hkey, hrest⟩

namespace ClassWithMethod

def project : Project :=
  ⟨workspace, ⟨.str "/r", .arr [], .arr [], .int 10⟩, some ⟨.str "dev", .str "main", .str "/r"⟩⟩

def review : Review :=
  ⟨project, [⟨.str file.uri, .str "+", .modified⟩], some ⟨.str "pr", .str "7", .str "/r"⟩⟩

def plantedIn (e : Option Environment) : Except Fault (List NodeKey) × NodeTable :=
  (Hierarchy.plantFile workspace (some .python) e none file (.int 1)).perform {}

theorem plantedIn_project :
    plantedIn project.environment = (.ok [0, 1, 2, 3], (plantedIn project.environment).2) ∧
    ((plantedIn project.environment).2.omissions 0).length = 2 := by
  have hrun : (plantedIn project.environment).1.toOption = some [0, 1, 2, 3] ∧
      ((plantedIn project.environment).2.omissions 0).length = 2 := by
    decide +kernel
  exact ⟨Outcome.pair_eq_of_toOption hrun.1, hrun.2⟩

theorem ofPath_file :
    FileChange.ofPath review.changes (.str file.uri) =
      .ok ⟨.str file.uri, .str "+", .modified⟩ := by
  apply FileChange.ofPath_of_mem
  · simp [review, Json.texts]
  · simp [review]
  · rfl

end ClassWithMethod

/-- The lines for the class and the function name them as nodes of the review. -/
theorem ClassWithMethod.marked_for_review : ({} : NodeTable).Tidy ∧ Hierarchy.NamedAbove {} none ∧
    FileChange.ofPath review.changes (.str file.uri) =
      .ok ⟨.str file.uri, .str "+", .modified⟩ ∧
    ∃ t' told u told', plantedIn project.environment = (.ok [0, 1, 2, 3], t') ∧
      (t'.omissions 0).length = 2 ∧ (skeletonize 0).perform t' = (.ok (), told) ∧
      plantedIn review.environment = (.ok [0, 1, 2, 3], u) ∧
      (skeletonize 0).perform u = (.ok (), told') ∧
      ∀ b : Builder, b.atlas.table = told → ∃ b', (review.mark 0).perform b = (.ok (), b') ∧
        (∀ k ∈ [0, 1, 2, 3], ∃ own text, t'.id k = .ok ("/dev/main" ++ own) ∧
          b'.atlas.table.Tells k ("/pr/7" ++ own) text ∧ told'.Tells k ("/pr/7" ++ own) text) ∧
        ∀ o ∈ b'.atlas.table.omissions 0, ∃ m ∈ t'.members 0, ∃ id,
          b'.atlas.table.id m = .ok id ∧ o.hash = Digest.hex id ∧ t'.id m ≠ .ok id := by
  obtain ⟨hplant, hlength⟩ := plantedIn_project
  have habove : Hierarchy.NamedAbove {} none := by
    intro p hp
    cases hp
  obtain ⟨told, u, told', hrun, hplant', hrun', hall⟩ := marked_as_if_planted_for_review
    workspace review NodeTable.tidy_empty habove hplant ofPath_file
  refine ⟨NodeTable.tidy_empty, habove, ofPath_file, _, told, u, told', hplant, hlength, hrun,
    hplant', hrun', ?_⟩
  intro b hb
  obtain ⟨b', hmark, htells⟩ := hall b hb
  refine ⟨b', hmark, ?_, ?_⟩
  · intro k hk
    obtain ⟨own, text, hid, hmarked, hplanted, -⟩ := htells k hk
    exact ⟨own, text, hid, hmarked, hplanted⟩
  · intro o ho
    obtain ⟨-, -, -, -, -, -, hnames⟩ := htells 0 (by decide)
    obtain ⟨m, hm, -, id, hid, hhash, hnew⟩ := hnames o ho
    exact ⟨m, hm, id, hid, hhash, hnew (by decide)⟩

end CodeAtlas
