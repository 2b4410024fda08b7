import TypeLang.Model.Basic
import TypeLang.Proofs.Success

/-!
# Looking up names

Going through an index gives what a search for the name gives. Where names are different this is the
one element of the name.
-/
namespace TypeLang.Model

variable {m : Model} {name : String}

theorem mem_types_of_type? {t : TaggedType} (h : m.type? name = some t) :
    t ∈ m.types ∧ t.name = name := by
  rw [type?_eq_find?] at h
  exact ⟨List.mem_of_find?_eq_some h, by simpa using List.find?_some h⟩

/-- Where names are different, a look-up gives the one type of the name. -/
theorem type?_eq_some_iff (hnames : (m.types.map (·.name)).Nodup) {t : TaggedType} :
    m.type? name = some t ↔ t ∈ m.types ∧ t.name = name := by
  rw [type?_eq_find?]
  exact find?_eq_some_iff_of_nodup hnames

/-- Where names are different, a look-up gives the one method of the name. -/
theorem method?_eq_some_iff (hnames : (m.methods.map (·.name)).Nodup) {method : Method} :
    m.method? name = some method ↔ method ∈ m.methods ∧ method.name = name := by
  rw [method?_eq_find?]
  exact find?_eq_some_iff_of_nodup hnames

end TypeLang.Model
