namespace CodeAtlas.Database.Query

def blanks (n : Nat) : String :=
  String.ofList (List.replicate n ' ')

/-- Lines at one depth, with an empty line before them and the last one open. -/
def block (depth last : Nat) (lines : List String) : String :=
  "\n" ++ String.join (lines.map (fun line => blanks depth ++ line ++ "\n")) ++ blanks last

def nameIndex : String :=
  block 12 12 [
    "CREATE FULLTEXT INDEX functionNames IF NOT EXISTS FOR (n:CLASS|FUNCTION|FILE) " ++
      "ON EACH [n.name, n.path, n.node_id]"]

def idIndex : String :=
  block 12 12 [
    "CREATE INDEX node_id_NODE IF NOT EXISTS FOR (n:NODE) ON (n.node_id)"]

def entityIndex : String :=
  block 12 12 [
    "CREATE INDEX entityId_INDEX IF NOT EXISTS FOR (n:NODE) ON (n.entityId)"]

def uniqueness : String :=
  block 12 12 [
    "CREATE CONSTRAINT user_node_unique IF NOT EXISTS FOR (n:NODE)",
    "REQUIRE (n.entityId, n.node_id) IS UNIQUE"]

def nodeById : String :=
  block 8 8 [
    "MATCH (n)",
    "WHERE n.node_id = $node_id",
    "return n"]

def search : String :=
  block 4 8 [
    "CALL db.index.fulltext.queryNodes(\"functionNames\", $formatted_query) YIELD node, score",
    "where node.repoId = $repoId",
    "RETURN node.node_id, node.name, node.file_path, score"]

def searchCode : String :=
  block 4 8 [
    "CALL db.index.fulltext.queryNodes(\"functionNames\", $formatted_query) YIELD node, score",
    "where node.repoId = $repoId",
    "RETURN node.text, node.node_id, node.name, node.file_path, node.start_line, " ++
      "node.end_line, score"]

def neighbours : String :=
  block 16 16 [
    "MATCH (p \x7bnode_id: $node_id\x7d)-[r]->(p2)",
    "RETURN",
    "    type(r) as relationship_type,",
    "    p2.node_id AS node_id,",
    "    p2.name AS node_name,",
    "    labels(p2) AS node_type"]

def neighboursWithin : String :=
  block 16 16 [
    "MATCH (p \x7bnode_id: $node_id\x7d)",
    "CALL apoc.neighbors.byhop(p, \">\", $num_hops)",
    "YIELD nodes",
    "UNWIND nodes AS all_nodes",
    "RETURN all_nodes.node_id AS node_id, all_nodes.name AS function_name, " ++
      "labels(all_nodes) AS labels"]

def createNodes : String :=
  block 8 8 [
    "CALL apoc.periodic.iterate(",
    "    \"UNWIND $nodeList AS node RETURN node\",",
    "    \"CALL apoc.merge.node(",
    "    node.extra_labels + [node.type, 'NODE'],",
    "    apoc.map.merge(node.attributes, \x7brepoId: $repoId, entityId: $entityId\x7d),",
    "    \x7b\x7d,",
    "    \x7b\x7d",
    "    )",
    "    YIELD node as n RETURN count(n) as count\",",
    "    \x7bbatchSize: $batchSize, parallel: false, iterateList: true, params: " ++
      "\x7bnodeList: $nodeList, repoId: $repoId, entityId: $entityId\x7d\x7d",
    ")",
    "YIELD batches, total, errorMessages, updateStatistics",
    "RETURN batches, total, errorMessages, updateStatistics"]

def createEdges : String :=
  block 8 8 [
    "CALL apoc.periodic.iterate(",
    "    'WITH $edgesList AS edges UNWIND edges AS edgeObject RETURN edgeObject',",
    "    'MATCH (node1:NODE \x7bnode_id: edgeObject.sourceId\x7d) ",
    "    MATCH (node2:NODE \x7bnode_id: edgeObject.targetId\x7d) ",
    "    CALL apoc.merge.relationship(",
    "    node1, ",
    "    edgeObject.type, ",
    "    \x7bscopeText: edgeObject.scopeText\x7d, ",
    "    \x7b\x7d, ",
    "    node2, ",
    "    \x7b\x7d",
    "    ) ",
    "    YIELD rel RETURN rel',",
    "    \x7bbatchSize:$batchSize, parallel:false, iterateList: true, " ++
      "params:\x7bedgesList: $edgesList, entityId: $entityId\x7d\x7d",
    ")",
    "YIELD batches, total, errorMessages, updateStatistics",
    "RETURN batches, total, errorMessages, updateStatistics"]

/-- Deletes the nodes at a path with all their relationships. -/
def deleteAt : String :=
  block 16 16 [
    "MATCH (n \x7bpath: $path\x7d)",
    "DETACH DELETE n"]

def ofRepository : String :=
  "match (n \x7brepoId: $repoId\x7d)-[r]-(m) return n, m, r"

def ofEntity : String :=
  "match (n \x7bentityId: $entityId\x7d)-[r]-(m) return n, m, r"

def typeCondition : List String → String
  | [type] => "WHERE type(r) = '" ++ type ++ "'"
  | types => "WHERE type(r) IN [" ++ ", ".intercalate (types.map fun t => "'" ++ t ++ "'") ++ "]"

def fromPath (path : String) : String :=
  block 16 16 ["MATCH p1 \x7b path:" ++ path ++ " \x7d<-[r]-(p2)"]

def fromId : String :=
  block 16 16 ["MATCH (p \x7bnode_id: $node_id\x7d)<-[r]-(p2)"]

/-- The nodes from which a relationship leads to a node, under a condition. -/
def incoming (start condition : String) : String :=
  start ++ condition ++
    block 12 12 ["RETURN", "    type(r) as relationship_type,", "    p2.node_id AS node_id,",
      "    p2.name AS node_name,", "    labels(p2) AS node_type"]

end CodeAtlas.Database.Query
