import TinyLanguage.Token.Basic

namespace TinyLanguage

structure Lexeme where
  kind : Token.Kind
  text : String
deriving DecidableEq, Repr

def Token.lexeme (t : Token) : Lexeme :=
  ⟨t.kind, t.text⟩

namespace Lexeme

def fixed (k : Token.Kind) : Lexeme :=
  ⟨k, k.spelling?.getD ""⟩

@[simp] theorem kind_fixed (k : Token.Kind) : (fixed k).kind = k := rfl

@[simp] theorem fixed_inj {j k : Token.Kind} : fixed j = fixed k ↔ j = k :=
  ⟨congrArg Lexeme.kind, congrArg fixed⟩

@[simp] theorem fixed_eq_mk {j k : Token.Kind} {x : String} :
    fixed j = ⟨k, x⟩ ↔ j = k ∧ j.spelling?.getD "" = x := by
  simp [fixed]

@[simp] theorem mk_eq_fixed {j k : Token.Kind} {x : String} :
    ⟨k, x⟩ = fixed j ↔ k = j ∧ x = j.spelling?.getD "" := by
  simp [fixed]

end Lexeme

theorem Token.lexeme_of_kind {t : Token} {k : Token.Kind} (h : t.kind = k)
    (hk : k.spelling?.isSome) : t.lexeme = .fixed k := by
  obtain ⟨s, hs⟩ := Option.isSome_iff_exists.1 hk
  have ht : s = t.text := Kind.spelling_classify (by rw [← t.kind_eq, h, hs])
  rw [Token.lexeme, Lexeme.fixed, h, hs, ht, Option.getD_some]

end TinyLanguage
