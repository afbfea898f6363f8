/-!
# Versions

The versions that a document states unless a project sets others.
-/

namespace FieldSchema.Publication

/-- The version of the document format. -/
def standardFormatVersion : String := "3.0.3"

/-- The version of the interface that a document describes. -/
def standardApiVersion : String := "1.0.0"

end FieldSchema.Publication
