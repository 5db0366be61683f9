import CodeAtlas.Proofs.Assoc
import CodeAtlas.Proofs.References
import CodeAtlas.Proofs.Source.Cursor

namespace CodeAtlas
open Source

namespace Language

/-- What a use inside a node means for a definition with the given label. Ruby looks at the method
of a call where the other languages have a table of kinds. -/
inductive Means : Language → Label → SyntaxNode → RelationType → Prop where
  | listed {l label n type table} (hl : l ≠ .ruby) (htable : l.relationTable label = some table)
      (kind : (n.kind, type) ∈ table) : Means l label n type
  | creates {n method} (kind : n.kind = "call") (child : n.child? "method" = some method)
      (text : method.text = "new") : Means .ruby .class_ n .instantiates
  | assigns {label n} (kind : n.kind = "assignment") : Means .ruby label n .assigns
  | inherits {n} (kind : n.kind = "superclass") : Means .ruby .class_ n .inherits
  | calls {n} (kind : n.kind = "call") : Means .ruby .function n .calls

/-- A call of which Ruby cannot tell whether it makes an object of a class. -/
structure Obscure (l : Language) (label : Label) (n : SyntaxNode) : Prop where
  ruby : l = .ruby
  class_ : label = .class_
  call : n.kind = "call"
  method : n.child? "method" = none

/-- What one node says about a use inside it. In Ruby a call of `new` and an assignment come before
the table. -/
def classify (l : Language) (label : Label) (n : SyntaxNode) : Except Fault (Option RelationType) :=
  match l with
  | ruby => do
    if ← makesObject label n then pure (some .instantiates)
    else if n.kind == "assignment" then pure (some .assigns)
    else match l.relationTable label with
      | some table => pure (lookUp table n)
      | none => .error (.keyNotFound label.name)
  | _ => .ok (lookUp ((l.relationTable label).getD []) n)

/-- The first node of a chain that says something. -/
def nearest (rule : SyntaxNode → Except Fault (Option RelationType)) :
    List SyntaxNode → Except Fault (Option Usage)
  | [] => .ok none
  | n :: ns => do
    match ← rule n with
    | some type => pure (some ⟨type, some n⟩)
    | none => nearest rule ns

structure Silent (l : Language) (label : Label) (n : SyntaxNode) : Prop where
  meaningless : ∀ type, ¬l.Means label n type
  clear : ¬l.Obscure label n

variable {l : Language} {label : Label} {n : SyntaxNode} {type : RelationType}

section Rules

theorem nodup_keys_relationTable {table : Assoc String RelationType}
    (h : l.relationTable label = some table) : (Assoc.keys table).Nodup := by
  cases l <;> cases label <;> cases h <;> decide

theorem classify_of_ne_ruby (hl : l ≠ .ruby) :
    l.classify label n = .ok (lookUp ((l.relationTable label).getD []) n) := by
  cases l <;> first | rfl | exact absurd rfl hl

theorem means_iff_lookUp (hl : l ≠ .ruby) :
    l.Means label n type ↔ lookUp ((l.relationTable label).getD []) n = some type := by
  cases htable : l.relationTable label with
  | none =>
    refine ⟨fun h => ?_, fun h => by cases h⟩
    cases h with
    | listed _ hsome _ => cases htable.symm.trans hsome
    | _ => exact absurd rfl hl
  | some table =>
    rw [Option.getD_some, lookUp, Assoc.get?_eq_some_iff_mem (nodup_keys_relationTable htable)]
    refine ⟨fun h => ?_, .listed hl htable⟩
    cases h with
    | listed _ hsome kind =>
      cases htable.symm.trans hsome
      exact kind
    | _ => exact absurd rfl hl

theorem classify_ruby_class :
    ruby.classify .class_ n =
      if n.kind = "call" then
        (callsNew n).map fun creates => if creates then some .instantiates else none
      else if n.kind = "assignment" then .ok (some .assigns)
      else if n.kind = "superclass" then .ok (some .inherits)
      else .ok none := by
  by_cases hcall : n.kind = "call"
  · cases hnew : callsNew n with
    | error fault => simp [classify, makesObject, hcall, hnew, bind, Except.bind, Except.map]
    | ok creates =>
      cases creates <;>
        simp [classify, makesObject, hcall, hnew, relationTable, lookUp, Assoc.get?, bind,
          Except.bind, Except.map, pure, Except.pure]
  · by_cases hassign : n.kind = "assignment"
    · simp [classify, makesObject, hassign, bind, Except.bind, pure, Except.pure]
    · by_cases hsuper : n.kind = "superclass"
      · simp [classify, makesObject, hsuper, relationTable, lookUp, Assoc.get?, bind, Except.bind,
          pure, Except.pure]
      · simp [classify, makesObject, hcall, hassign, hsuper, relationTable, lookUp, Assoc.get?,
          bind, Except.bind, pure, Except.pure, Ne.symm hsuper]

theorem classify_ruby_function :
    ruby.classify .function n =
      if n.kind = "assignment" then .ok (some .assigns)
      else if n.kind = "call" then .ok (some .calls)
      else .ok none := by
  by_cases hassign : n.kind = "assignment"
  · simp [classify, makesObject, hassign, bind, Except.bind, pure, Except.pure]
  · by_cases hcall : n.kind = "call"
    · simp [classify, makesObject, hcall, relationTable, lookUp, Assoc.get?, bind, Except.bind,
        pure, Except.pure]
    · simp [classify, makesObject, hcall, hassign, relationTable, lookUp, Assoc.get?, bind,
        Except.bind, pure, Except.pure, Ne.symm hcall]

theorem means_ruby_class :
    ruby.Means .class_ n type ↔
      n.kind = "call" ∧ callsNew n = .ok true ∧ type = .instantiates ∨
      n.kind = "assignment" ∧ type = .assigns ∨ n.kind = "superclass" ∧ type = .inherits := by
  constructor
  · intro h
    cases h with
    | listed hl _ _ => exact absurd rfl hl
    | creates kind child text => exact .inl ⟨kind, by simp [callsNew, child, text], rfl⟩
    | assigns kind => exact .inr (.inl ⟨kind, rfl⟩)
    | inherits kind => exact .inr (.inr ⟨kind, rfl⟩)
  · rintro (⟨kind, hnew, rfl⟩ | ⟨kind, rfl⟩ | ⟨kind, rfl⟩)
    · unfold callsNew at hnew
      split at hnew
      · rename_i method hmethod
        exact .creates kind hmethod (by simpa using hnew)
      · cases hnew
    · exact .assigns kind
    · exact .inherits kind

theorem means_ruby_function :
    ruby.Means .function n type ↔
      n.kind = "assignment" ∧ type = .assigns ∨ n.kind = "call" ∧ type = .calls := by
  constructor
  · intro h
    cases h with
    | listed hl _ _ => exact absurd rfl hl
    | assigns kind => exact .inl ⟨kind, rfl⟩
    | calls kind => exact .inr ⟨kind, rfl⟩
  · rintro (⟨kind, rfl⟩ | ⟨kind, rfl⟩)
    · exact .assigns kind
    · exact .calls kind

theorem callsNew_eq_error {fault : Fault} :
    callsNew n = .error fault ↔ fault = .callWithoutMethod ∧ n.child? "method" = none := by
  cases h : n.child? "method" with
  | none => simp [callsNew, h, eq_comm]
  | some method => simp [callsNew, h]

theorem classify_eq_some (hlabel : label = .class_ ∨ label = .function) :
    l.classify label n = .ok (some type) ↔ l.Means label n type := by
  by_cases hl : l = .ruby
  · subst hl
    rcases hlabel with rfl | rfl
    · rw [classify_ruby_class, means_ruby_class]
      cases hnew : callsNew n with
      | error fault => grind [Except.map]
      | ok creates => grind [Except.map]
    · rw [classify_ruby_function, means_ruby_function]
      grind
  · rw [classify_of_ne_ruby hl, Except.ok.injEq, means_iff_lookUp hl]

theorem classify_eq_error (hlabel : label = .class_ ∨ label = .function) {fault : Fault} :
    l.classify label n = .error fault ↔ fault = .callWithoutMethod ∧ l.Obscure label n := by
  by_cases hl : l = .ruby
  · subst hl
    rcases hlabel with rfl | rfl
    · rw [classify_ruby_class]
      by_cases hcall : n.kind = "call"
      · have hmap : ((callsNew n).map fun creates =>
            if creates then some RelationType.instantiates else none) = .error fault ↔
            callsNew n = .error fault := by
          cases callsNew n <;> simp [Except.map]
        rw [if_pos hcall, hmap, callsNew_eq_error]
        exact and_congr_right fun _ => ⟨fun h => ⟨rfl, rfl, hcall, h⟩, fun h => h.method⟩
      · grind [Obscure]
    · rw [classify_ruby_function]
      grind [Obscure]
  · rw [classify_of_ne_ruby hl]
    exact ⟨fun h => (by cases h), fun h => absurd h.2.ruby hl⟩

theorem classify_eq_none (hlabel : label = .class_ ∨ label = .function) :
    l.classify label n = .ok none ↔ l.Silent label n := by
  constructor
  · intro h
    refine ⟨fun type hmeans => ?_, fun hobscure => ?_⟩
    · cases h.symm.trans ((classify_eq_some hlabel).mpr hmeans)
    · cases h.symm.trans ((classify_eq_error hlabel).mpr ⟨rfl, hobscure⟩)
  · intro h
    cases hvalue : l.classify label n with
    | error fault => exact absurd ((classify_eq_error hlabel).mp hvalue).2 h.clear
    | ok found =>
      cases found with
      | none => rfl
      | some type => exact absurd ((classify_eq_some hlabel).mp hvalue) (h.meaningless type)

end Rules

section Search
variable {rule : SyntaxNode → Except Fault (Option RelationType)} {m : SyntaxNode}
  {chain : List SyntaxNode}

theorem nearest_of_error {fault : Fault} (h : rule m = .error fault) :
    nearest rule (m :: chain) = .error fault := by
  simp [nearest, h, bind, Except.bind]

theorem nearest_of_some (h : rule m = .ok (some type)) :
    nearest rule (m :: chain) = .ok (some ⟨type, some m⟩) := by
  simp [nearest, h, bind, Except.bind, pure, Except.pure]

theorem nearest_of_none (h : rule m = .ok none) :
    nearest rule (m :: chain) = nearest rule chain := by
  simp [nearest, h, bind, Except.bind]

theorem nearest_eq_none : nearest rule chain = .ok none ↔ ∀ n ∈ chain, rule n = .ok none := by
  induction chain with
  | nil => simp [nearest]
  | cons m chain ih =>
    cases h : rule m with
    | error fault => simp [nearest_of_error h, h]
    | ok found =>
      cases found with
      | none => simp [nearest_of_none h, h, ih]
      | some type => simp [nearest_of_some h, h]

theorem nearest_eq_some {usage : Usage} :
    nearest rule chain = .ok (some usage) ↔
      ∃ n, Reached (fun m => rule m = .ok none) chain n ∧ rule n = .ok (some usage.type) ∧
        usage.scope = some n := by
  induction chain with
  | nil => simp [nearest, not_reached_nil]
  | cons m chain ih =>
    cases h : rule m with
    | error fault => simp [nearest_of_error h, reached_cons, h]
    | ok found =>
      cases found with
      | none => simp [nearest_of_none h, reached_cons, h, ih]
      | some type =>
        obtain ⟨type', scope⟩ := usage
        simp [nearest_of_some h, reached_cons, h, eq_comm]

theorem nearest_eq_error {fault : Fault} :
    nearest rule chain = .error fault ↔
      ∃ n, Reached (fun m => rule m = .ok none) chain n ∧ rule n = .error fault := by
  induction chain with
  | nil => simp [nearest, not_reached_nil]
  | cons m chain ih =>
    cases h : rule m with
    | error found => simp [nearest_of_error h, reached_cons, h]
    | ok found =>
      cases found with
      | none => simp [nearest_of_none h, reached_cons, h, ih]
      | some type => simp [nearest_of_some h, reached_cons, h]

theorem exists_reached_obscure :
    (∃ n, Reached (l.Silent label) chain n ∧ l.Obscure label n) ↔
      ∃ n, Reached (fun m => ∀ type, ¬l.Means label m type) chain n ∧ l.Obscure label n := by
  induction chain with
  | nil => simp [not_reached_nil]
  | cons m chain ih =>
    simp only [reached_cons, or_and_right, exists_or, exists_eq_left, and_assoc, exists_and_left,
      ih]
    by_cases hobscure : l.Obscure label m
    · simp [hobscure]
    · have hsilent : l.Silent label m ↔ ∀ type, ¬l.Means label m type :=
        ⟨fun h => h.meaningless, fun h => ⟨h, hobscure⟩⟩
      rw [hsilent]

end Search

section Climbs
variable {table : Assoc String RelationType} {chain : List SyntaxNode}

theorem climb_eq_nearest :
    .ok (climb table chain) = nearest (fun n => .ok (lookUp table n)) chain := by
  induction chain with
  | nil => rfl
  | cons n above ih =>
    cases h : lookUp table n with
    | none =>
      rw [nearest_of_none (congrArg Except.ok h), ← ih, climb, h]
    | some type =>
      rw [nearest_of_some (congrArg Except.ok h), climb, h]

/-- The first row for a kind is what looking the kind up gives. -/
theorem firstRow?_eq (table : Assoc String RelationType) (n : SyntaxNode) :
    firstRow? table n = (lookUp table n).map fun type => ⟨type, some n⟩ := by
  have hsides : (fun row : String × RelationType => n.kind == row.1) = fun row => row.1 == n.kind :=
    funext fun row => BEq.comm
  rw [firstRow?, lookUp, Assoc.get?, hsides, Option.map_map]
  rfl

/-- What a round of the climb has found is the result, whether or not there is a node above. -/
theorem climbRuby_some (usage : Usage) : climbRuby label (some usage) chain = .ok (some usage) := by
  cases chain <;> rfl

/-- One round of Ruby's climb asks what the node says, and goes on if that is nothing. -/
theorem climbRuby_cons (n : SyntaxNode) : climbRuby label none (n :: chain) =
    ruby.classify label n >>= fun said =>
      match said with
      | some type => .ok (some ⟨type, some n⟩)
      | none => climbRuby label none chain := by
  rw [climbRuby, classify]
  cases makesObject label n with
  | error fault => rfl
  | ok creates =>
    cases creates with
    | true => rfl
    | false =>
      by_cases hassign : n.kind = "assignment"
      · simp [hassign, bind, Except.bind, pure, Except.pure]
      · cases htable : ruby.relationTable label with
        | none => simp [hassign, bind, Except.bind]
        | some table =>
          cases hrow : lookUp table n with
          | none => simp [hassign, firstRow?_eq, hrow, bind, Except.bind, pure, Except.pure]
          | some type =>
            simp [hassign, firstRow?_eq, hrow, climbRuby_some, bind, Except.bind, pure, Except.pure]

theorem climbRuby_eq_nearest :
    climbRuby label none chain = nearest (ruby.classify label) chain := by
  induction chain with
  | nil => rfl
  | cons n above ih =>
    rw [climbRuby_cons, nearest, ih]
    cases ruby.classify label n with
    | error fault => rfl
    | ok said => cases said <;> rfl

/-- Both climbs come to the nearest node that says something. -/
theorem usage?_eq_nearest (l : Language) (label : Label) (chain : List SyntaxNode) :
    l.usage? label chain = nearest (l.classify label) chain := by
  cases l with
  | ruby => exact climbRuby_eq_nearest
  | python => exact climb_eq_nearest
  | javascript => exact climb_eq_nearest
  | typescript => exact climb_eq_nearest

end Climbs

section Usage
variable {chain : List SyntaxNode}

theorem usage?_eq_some (hlabel : label = .class_ ∨ label = .function) {usage : Usage} :
    l.usage? label chain = .ok (some usage) ↔
      ∃ n, Reached (l.Silent label) chain n ∧ l.Means label n usage.type ∧
        usage.scope = some n := by
  simp only [usage?_eq_nearest, nearest_eq_some, classify_eq_none hlabel, classify_eq_some hlabel]

theorem usage?_eq_none (hlabel : label = .class_ ∨ label = .function) :
    l.usage? label chain = .ok none ↔ ∀ n ∈ chain, l.Silent label n := by
  simp only [usage?_eq_nearest, nearest_eq_none, classify_eq_none hlabel]

theorem usage?_eq_error (hlabel : label = .class_ ∨ label = .function) {fault : Fault} :
    l.usage? label chain = .error fault ↔
      fault = .callWithoutMethod ∧
        ∃ n, Reached (fun m => ∀ type, ¬l.Means label m type) chain n ∧ l.Obscure label n := by
  simp only [usage?_eq_nearest, nearest_eq_error, classify_eq_none hlabel, classify_eq_error hlabel]
  rw [← exists_reached_obscure]
  constructor
  · rintro ⟨n, hreached, rfl, hobscure⟩
    exact ⟨rfl, n, hreached, hobscure⟩
  · rintro ⟨rfl, n, hreached, hobscure⟩
    exact ⟨n, hreached, rfl, hobscure⟩

end Usage
end Language

namespace References
variable {l : Language} {t : NodeTable} {key user : NodeKey} {n : Node} {d : Definition}
  {e : Extent} {c c' : Cursor}

theorem usageAt_eq (hn : t.node key = .ok n) (hd : t.definition user = .ok d)
    (hc : d.cursor = some c) (hlocate : c.locate e = .ok c') :
    usageAt (some l) t key e user =
      (fun found => found.getD ⟨.uses, none⟩) <$> l.usage? n.label c'.chain := by
  simp only [usageAt, hd, hc, hn, hlocate, bind, Except.bind]
  cases l.usage? n.label c'.chain <;> rfl

end References

/-- A use is told by the nearest node around it that means something, which is its scope; a call
that Ruby cannot tell, if it comes first, is a fault. Where no node means anything the use is a
plain one, without a scope. -/
theorem usage_told_by_nearest_node (l : Language) {label : Label}
    (hlabel : label = .class_ ∨ label = .function) (c : Cursor) :
    (∀ usage, l.usage? label c.chain = .ok (some usage) ↔
      ∃ n, Reached (l.Silent label) c.chain n ∧ l.Means label n usage.type ∧
        usage.scope = some n) ∧
    (l.usage? label c.chain = .ok none ↔ ∀ n ∈ c.chain, l.Silent label n) ∧
    (∀ fault, l.usage? label c.chain = .error fault ↔
      fault = .callWithoutMethod ∧
        ∃ n, Reached (fun m => ∀ type, ¬l.Means label m type) c.chain n ∧
          l.Obscure label n) ∧
    ∀ {t : NodeTable} {key user : NodeKey} {n : Node} {d : Definition} {first : Cursor}
      {e : Extent},
      t.node key = .ok n → n.label = label → t.definition user = .ok d → d.cursor = some first →
      first.locate e = .ok c → first.LeadsTo c ∧
        ∀ usage, References.usageAt (some l) t key e user = .ok usage ↔
          l.usage? label c.chain = .ok (some usage) ∨
            usage = ⟨.uses, none⟩ ∧ ∀ n ∈ c.chain, l.Silent label n := by
  refine ⟨fun _ => Language.usage?_eq_some hlabel, Language.usage?_eq_none hlabel,
    fun _ => Language.usage?_eq_error hlabel, ?_⟩
  rintro t key user n d first e hn rfl hd hfirst hlocate
  refine ⟨Cursor.locate_leadsTo hlocate, fun usage => ?_⟩
  rw [References.usageAt_eq hn hd hfirst hlocate, ← Language.usage?_eq_none hlabel,
    Outcome.map_eq_ok]
  constructor
  · rintro ⟨found, hfound, rfl⟩
    cases found with
    | none => exact .inr ⟨rfl, hfound⟩
    | some usage => exact .inl hfound
  · rintro (hfound | ⟨rfl, hfound⟩)
    · exact ⟨_, hfound, rfl⟩
    · exact ⟨_, hfound, rfl⟩

namespace CallOfValue

/-- The Ruby text `build.(Foo.new)`: the outer call has no method. -/
def constant : SyntaxNode :=
  .mk "constant" (some "receiver") true ⟨7, 0, 7⟩ ⟨10, 0, 10⟩ "Foo" []

def creation : SyntaxNode :=
  .mk "call" none true ⟨7, 0, 7⟩ ⟨14, 0, 14⟩ "Foo.new"
    [constant, .mk "identifier" (some "method") true ⟨11, 0, 11⟩ ⟨14, 0, 14⟩ "new" []]

def arguments : SyntaxNode :=
  .mk "argument_list" (some "arguments") true ⟨6, 0, 6⟩ ⟨15, 0, 15⟩ "(Foo.new)" [creation]

def call : SyntaxNode :=
  .mk "call" none true ⟨0, 0, 0⟩ ⟨15, 0, 15⟩ "build.(Foo.new)"
    [.mk "identifier" (some "receiver") true ⟨0, 0, 0⟩ ⟨5, 0, 5⟩ "build" [], arguments]

theorem silent {n : SyntaxNode} (h : n.kind = "constant" ∨ n.kind = "argument_list") :
    Language.ruby.Silent .class_ n := by
  apply (Language.classify_eq_none (.inl rfl)).mp
  rw [Language.classify_ruby_class]
  rcases h with h | h <;> simp [h]

end CallOfValue

open CallOfValue in
/-- The constant is told by the call of `new` below the call that has no method, and from the
arguments on that call is a fault. -/
theorem usage_told_by_creation :
    Language.ruby.usage? .class_ (Cursor.mk constant [creation, arguments, call]).chain =
        .ok (some ⟨.instantiates, some creation⟩) ∧
      Language.ruby.usage? .class_ (Cursor.mk arguments [call]).chain =
        .error .callWithoutMethod := by
  constructor
  · refine ((usage_told_by_nearest_node .ruby (.inl rfl) _).1 _).mpr ⟨creation, ?_, ?_, rfl⟩
    · exact ⟨[constant], [arguments, call], rfl, by simpa using silent (.inl rfl)⟩
    · exact .creates rfl rfl rfl
  · refine ((usage_told_by_nearest_node .ruby (.inl rfl) _).2.2.1 _).mpr ⟨rfl, call, ?_, ?_⟩
    · exact ⟨[arguments], [], rfl, by simpa using (silent (.inr rfl)).meaningless⟩
    · exact ⟨rfl, rfl, rfl, rfl⟩

end CodeAtlas
