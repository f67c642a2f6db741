namespace TinyLanguage

/-- Fills a text up with spaces in front; a text of `width` characters or more stays as it is. -/
def alignRight (width : Nat) (text : String) : String :=
  "".pushn ' ' (width - text.length) ++ text

def alignLeft (width : Nat) (text : String) : String :=
  text.pushn ' ' (width - text.length)

end TinyLanguage
