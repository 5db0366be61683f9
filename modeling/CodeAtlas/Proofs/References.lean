import CodeAtlas.Proofs.Graph.Index
import CodeAtlas.References

namespace CodeAtlas
open NodeTable

namespace NodeTable
variable {t : NodeTable}

def DefinedAt (t : NodeTable) (path : String) (key : NodeKey) : Prop :=
  ∃ n d, t.get? key = some n ∧ n.content = .definition d ∧ n.path = path

theorem Tidy.definedAt_members (ht : t.Tidy) {path : String} {key m : NodeKey}
    (h : t.DefinedAt path key) (hm : m ∈ t.members key) : t.DefinedAt path m := by
  obtain ⟨n, d, hn, hd, hpath⟩ := h
  obtain ⟨member, hmember, ⟨d', hd', -⟩, hp⟩ := ht.inner hn hd m hm
  exact ⟨member, d', hmember, hd', hp.trans hpath⟩

theorem searchAmong_definedAt {path : String} {e : Extent}
    {inside : NodeKey → Except Fault NodeKey} {key user : NodeKey} {members : List NodeKey}
    (hkey : t.DefinedAt path key)
    (hinside : ∀ m ∈ members, inside m = .ok user → t.DefinedAt path user)
    (h : t.searchAmong e inside key members = .ok user) : t.DefinedAt path user := by
  induction members with
  | nil =>
    cases h
    exact hkey
  | cons m ms ih =>
    obtain ⟨hm, hms⟩ := List.forall_mem_cons.mp hinside
    simp only [searchAmong, Outcome.bind_eq_ok] at h
    obtain ⟨d, -, holds, -, h⟩ := h
    split at h
    · exact hm h
    · obtain ⟨past, -, h⟩ := Outcome.bind_eq_ok.mp h
      split at h
      · cases h
        exact hkey
      · exact ih hms h

/-- A search does not leave the file. -/
theorem Tidy.searchFrom_definedAt (ht : t.Tidy) {path : String} {e : Extent} {depth : Nat}
    {key user : NodeKey} (hkey : t.DefinedAt path key) (h : t.searchFrom e depth key = .ok user) :
    t.DefinedAt path user := by
  induction depth generalizing key with
  | zero => cases h
  | succ depth ih =>
    exact searchAmong_definedAt hkey (fun m hm => ih (ht.definedAt_members hkey hm)) h

end NodeTable

namespace References
variable {l : Option Language} {t : NodeTable} {g : Graph} {key : NodeKey}

/-- A place gives rise to a relationship from a definition in its file. -/
theorem relationshipAt_eq_some {place : Place} {r : Relationship}
    (h : relationshipAt l t g key place = .ok (some r)) :
    ∃ file, g.fileAt? place.uri = some file ∧
      t.referenceSearch place.extent file = .ok r.start ∧ r.stop = key := by
  unfold relationshipAt at h
  split at h
  · cases h
  · rename_i file hfile
    refine ⟨file, hfile, ?_⟩
    simp only [Outcome.bind_eq_ok] at h
    obtain ⟨user, huser, own, -, other, -, h⟩ := h
    split at h
    · cases h
    · simp only [Outcome.bind_eq_ok, Outcome.pure_eq_ok, Option.some.injEq] at h
      obtain ⟨usage, -, rfl⟩ := h
      exact ⟨huser, rfl⟩

theorem mem_relationshipsTo {places : List Place} {found : List Relationship} {r : Relationship}
    (h : relationshipsTo l t g key places = .ok found) (hr : r ∈ found) :
    ∃ place ∈ places, relationshipAt l t g key place = .ok (some r) := by
  simp only [relationshipsTo, Outcome.bind_eq_ok, Outcome.pure_eq_ok] at h
  obtain ⟨results, hresults, rfl⟩ := h
  obtain ⟨result, hresult, rfl⟩ := List.mem_filterMap.mp hr
  exact Outcome.mem_of_mapM_eq_ok hresults hresult

/-- Relationships begin at a definition in a file of the graph. -/
theorem start_definedAt (ht : t.Tidy) (hg : g.Indexed t) {place : Place} {r : Relationship}
    (h : relationshipAt l t g key place = .ok (some r)) :
    (∃ file, g.fileAt? place.uri = some file) ∧ t.DefinedAt place.uri r.start := by
  obtain ⟨file, hfile, hsearch, -⟩ := relationshipAt_eq_some h
  simp only [referenceSearch, Outcome.bind_eq_ok] at hsearch
  obtain ⟨d, hd, hsearch⟩ := hsearch
  obtain ⟨n, hn, hcontent⟩ := definition_eq_ok.mp hd
  obtain ⟨n', hn', hpath, -⟩ := hg.file_at hfile
  cases hn.symm.trans hn'
  exact ⟨⟨file, hfile⟩, ht.searchFrom_definedAt ⟨n, d, hn, hcontent, hpath⟩ hsearch⟩

end References
end CodeAtlas
