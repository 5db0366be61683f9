import CodeAtlas.Proofs.Server.Tables

namespace CodeAtlas

namespace Json

/-- The name of a file, decoded if it is a text. -/
def decodedUri : Json → Json
  | .str uri => .str (Text.Percent.decode uri)
  | other => other

/-- A member of an answered place, decoded if it is the URI. -/
def decodedMember (key : Key) (value : Json) : Json :=
  if key = .text "uri" then value.decodedUri else value

def decodedPlace : Json → Json
  | .obj members => .obj (members.map fun m => (m.1, decodedMember m.1 m.2))
  | other => other

/-- An answer, which is a list of places or a single one, with all URIs decoded. -/
def decodedPlaces : Json → Json
  | .arr places => .arr (places.map decodedPlace)
  | other => other.decodedPlace

@[simp] theorem isKey_decodedUri (v : Json) : v.decodedUri.isKey = v.isKey := by
  cases v <;> rfl

@[simp] theorem isVoid_decodedPlace (v : Json) : v.decodedPlace.isVoid = v.isVoid := by
  cases v with
  | obj members => simp [decodedPlace, isVoid]
  | _ => rfl

@[simp] theorem isVoid_decodedPlaces (v : Json) : v.decodedPlaces.isVoid = v.isVoid := by
  cases v with
  | arr places => simp [decodedPlaces, isVoid]
  | obj members => exact isVoid_decodedPlace (.obj members)
  | _ => rfl

theorem decodedMember_uri : decodedMember "uri" = decodedUri :=
  funext fun _ => if_pos rfl

theorem field_decodedPlace (v : Json) (key : String) :
    v.decodedPlace.field key = decodedMember key <$> v.field key := by
  cases v with
  | obj members =>
    simp only [decodedPlace, field, Assoc.get?_map decodedMember]
    cases Assoc.get? members key <;> rfl
  | _ => rfl

/-- A list of places is decoded place by place. What else has items has texts for them. -/
theorem items_decodedPlaces (v : Json) :
    v.decodedPlaces.items = List.map decodedPlace <$> v.items := by
  have hsame : ∀ {α : Type} (xs : List α) (f : α → Json), (∀ x, (f x).decodedPlace = f x) →
      (.ok (xs.map f) : Except Fault _) = List.map decodedPlace <$> .ok (xs.map f) := by
    intro α xs f hf
    change _ = Except.ok _
    rw [List.map_map]
    exact congrArg _ (List.map_congr_left fun x _ => (hf x).symm)
  cases v with
  | obj members =>
    have hitems : (Json.obj members).decodedPlaces.items = (Json.obj members).items := by
      simp [decodedPlaces, decodedPlace, items]
    rw [hitems]
    exact hsame _ _ fun m => by cases m.1 <;> rfl
  | str text => exact hsame _ _ fun _ => rfl
  | ragged codes =>
    refine hsame _ _ fun code => ?_
    rw [ofCodes]
    split <;> rfl
  | _ => rfl

/-- The first item of what is no object. -/
theorem first_eq {v : Json} (hv : ∀ members, v ≠ .obj members) :
    v.first = v.items >>= fun items => items.head?.elim (.error .itemNotFound) .ok := by
  rw [first.eq_def]
  split
  · exact absurd rfl (hv _)
  · cases v.items with
    | error fault => rfl
    | ok items => cases items <;> rfl

theorem first_decodedPlaces (v : Json) : v.decodedPlaces.first = decodedPlace <$> v.first := by
  by_cases hv : ∀ members, v ≠ .obj members
  · have hv' : ∀ members, v.decodedPlaces ≠ .obj members := by
      cases v <;> simp_all [decodedPlaces, decodedPlace]
    rw [first_eq hv, first_eq hv', items_decodedPlaces]
    cases v.items with
    | error fault => rfl
    | ok items => cases items <;> rfl
  · obtain ⟨members, rfl⟩ : ∃ members, v = .obj members := by simpa using hv
    rfl

end Json

theorem Place.decodeUri_congr {v v' : Json} (h : v.decodedUri = v'.decodedUri) :
    decodeUri v = decodeUri v' := by
  cases v with
  | str uri =>
    cases v' with
    | str uri' => exact congrArg Except.ok (Json.str.inj h)
    | _ => cases h
  | _ => cases v' <;> first | cases h; rfl | cases h

/-- To read a place its URI is decoded. -/
theorem Place.ofJson_congr {v v' : Json} (h : v.decodedPlace = v'.decodedPlace) :
    ofJson v = ofJson v' := by
  have hvoid : v.isVoid = v'.isVoid := by
    rw [← Json.isVoid_decodedPlace v, h, Json.isVoid_decodedPlace]
  have hfield : ∀ key : String, Json.decodedMember key <$> v.field key =
      Json.decodedMember key <$> v'.field key := by
    intro key
    rw [← Json.field_decodedPlace, h, Json.field_decodedPlace]
  have hrange : v.field "range" = v'.field "range" := by
    have hmember : Json.decodedMember "range" = id := funext fun _ => if_neg (by decide)
    simpa only [hmember, id_map] using hfield "range"
  have huri := hfield "uri"
  rw [Json.decodedMember_uri] at huri
  rw [ofJson, ofJson, hvoid, hrange]
  split
  · rfl
  · refine bind_congr fun range => bind_congr fun start => bind_congr fun stop => ?_
    exact Outcome.bind_congr_of_map huri fun _ _ hsame => by rw [decodeUri_congr hsame]

namespace Server

def AnswerRow.decoded (r : AnswerRow) : AnswerRow :=
  { r with result := r.result.decodedPlaces }

def Answers.decoded (a : Answers) : Answers :=
  ⟨a.references.map AnswerRow.decoded, a.definitions.map AnswerRow.decoded⟩

namespace Answers

theorem lookUp_eq (rows : List AnswerRow) (uri : Json) (mark : Mark) : lookUp rows uri mark =
    ((rows.reverse.find? fun r => r.uri.same uri && r.mark.same mark).map AnswerRow.result).getD
      .null := by
  rw [lookUp]
  cases rows.reverse.find? fun r => r.uri.same uri && r.mark.same mark <;> rfl

theorem lookUp_decoded (rows : List AnswerRow) (uri : Json) (mark : Mark) :
    lookUp (rows.map AnswerRow.decoded) uri mark = (lookUp rows uri mark).decodedPlaces := by
  rw [lookUp_eq, lookUp_eq, ← List.map_reverse, List.find?_map]
  change (Option.map _ ((rows.reverse.find? fun r => r.uri.same uri && r.mark.same mark).map
    AnswerRow.decoded)).getD Json.null = _
  cases rows.reverse.find? fun r => r.uri.same uri && r.mark.same mark <;> rfl

theorem resultFor_decoded (rows : List AnswerRow) (uri : String) (mark : Mark) :
    resultFor (rows.map AnswerRow.decoded) uri mark =
      Json.decodedPlaces <$> resultFor rows uri mark := by
  rw [resultFor, resultFor, lookUp_decoded]
  split <;> rfl

variable {a a' : Answers}

/-- The spelling of URIs does not matter for references. -/
theorem placesOf_congr (h : a.decoded = a'.decoded) : a.placesOf = a'.placesOf := by
  funext n nameRange
  have hrows : a.references.map AnswerRow.decoded = a'.references.map AnswerRow.decoded :=
    congrArg Answers.references h
  have hresult : Json.decodedPlaces <$> resultFor a.references n.path nameRange.extent.start =
      Json.decodedPlaces <$> resultFor a'.references n.path nameRange.extent.start := by
    rw [← resultFor_decoded, hrows, resultFor_decoded]
  rw [placesOf, placesOf]
  refine bind_congr fun _ => ?_
  refine Outcome.bind_congr_of_map hresult fun found found' hfound => ?_
  have hvoid : found.isVoid = found'.isVoid := by
    rw [← Json.isVoid_decodedPlaces found, hfound, Json.isVoid_decodedPlaces]
  have hitems : List.map Json.decodedPlace <$> found.items =
      List.map Json.decodedPlace <$> found'.items := by
    rw [← Json.items_decodedPlaces, hfound, Json.items_decodedPlaces]
  rw [hvoid]
  split
  · rfl
  · exact Outcome.bind_congr_of_map hitems fun _ _ =>
      Outcome.mapM_congr_of_map fun _ _ => Place.ofJson_congr

/-- The definitions come under the URIs as they are written. -/
theorem definitionOf_decoded (a : Answers) (place : Place) :
    a.decoded.definitionOf place = Json.decodedUri <$> a.definitionOf place := by
  have hfirst : ∀ v : Json,
      Session.first v.decodedPlaces = Json.decodedPlace <$> Session.first v := by
    intro v
    rw [Session.first, Session.first, Json.isVoid_decodedPlaces, Json.first_decodedPlaces]
    split <;> rfl
  rw [definitionOf, definitionOf, decoded, resultFor_decoded]
  cases resultFor a.definitions place.uri place.extent.start with
  | error fault => rfl
  | ok result =>
    change Session.first result.decodedPlaces >>= _ =
      Json.decodedUri <$> (Session.first result >>= _)
    rw [hfirst]
    cases Session.first result with
    | error fault => rfl
    | ok found =>
      change (if found.decodedPlace.isVoid then _ else found.decodedPlace.field "uri") =
        Json.decodedUri <$> (if found.isVoid then _ else found.field "uri")
      rw [Json.isVoid_decodedPlace, Json.field_decodedPlace, Json.decodedMember_uri]
      split <;> rfl

end Answers
end Server
end CodeAtlas
