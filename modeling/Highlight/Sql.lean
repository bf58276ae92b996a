import Highlight.Sql.Colour
import Highlight.Sql.Fold

/-!
The language SQL, with the commands of SQL*Plus.
-/

namespace Highlight.Sql

def lexer : Lexer :=
  { id := 7
    name := "sql"
    slots :=
      [⟨"keywords", "Keywords"⟩,
       ⟨"database_objects", "Database Objects"⟩,
       ⟨"pldoc", "PLDoc"⟩,
       ⟨"sqlplus", "SQL*Plus"⟩,
       ⟨"user1", "User Keywords 1"⟩,
       ⟨"user2", "User Keywords 2"⟩,
       ⟨"user3", "User Keywords 3"⟩,
       ⟨"user4", "User Keywords 4"⟩]
    colour
    fold? := some fold }

end Highlight.Sql
