import TinyLanguage.Token.Cursor

namespace TinyLanguage

def item? {α : Type} : Except Error (Option α) → Option (Except Error α)
  | .ok none => none
  | .ok (some a) => some (.ok a)
  | .error e => some (.error e)

namespace Cursor

def here (c : Cursor) : Span :=
  .point c.place

def readOn (c : Cursor) : Nat → Cursor
  | 0 => c
  | k + 1 => (c.readOn k).read.2

end Cursor

/-- A source of tokens in use, together with the copies of it that have been put aside. -/
structure Session (σ : Type) where
  current : σ
  kept : List σ := []
deriving DecidableEq, Repr

namespace Session

/-- The next token is asked for as such or as the next item of a sequence; the source is copied, or
work goes on from one of the copies. -/
inductive Request where
  | token
  | item
  | keep
  | resume (index : Nat)
deriving DecidableEq, Repr

inductive Reply where
  | token (answer : Except Error (Option Token))
  | item (answer : Option (Except Error Token))
  | done

variable {σ τ : Type}

/-- Serves one request, where `read` answers a source of tokens and tells what becomes of it. There
is nothing to go on from if no copy has the index. -/
def serve (read : σ → Except Error (Option Token) × σ) (s : Session σ) : Request → Reply × Session σ
  | .token => (.token (read s.current).1, { s with current := (read s.current).2 })
  | .item => (.item (item? (read s.current).1), { s with current := (read s.current).2 })
  | .keep => (.done, { s with kept := s.kept ++ [s.current] })
  | .resume i => (.done, { s with current := s.kept[i]?.getD s.current })

def map (f : σ → τ) (s : Session σ) : Session τ :=
  ⟨f s.current, s.kept.map f⟩

end Session

end TinyLanguage
